/-
# The builder's symbol lists

A builder keeps the symbols of each length in a linked list: `head`, the links
`next`, and `tail` to append at. `Chained` relates them to the lists they stand for;
`push` appends one symbol (`Chained.push`), `pushRun` consecutive ones
(`Chained.pushRun`), and a chained builder is what `Builder.fill` expects
(`Chained.listed`).

The code-length code is built from lengths directly (`LengthCode.lookup_build`).
-/
import Mathlib.Algebra.BigOperators.Group.List.Basic
import Mbrotli.Decompressor.Core.HuffmanTable
import Mbrotli.Lib.CodeLengths

namespace Mbrotli

open Canonical

/-- The links from `x` run through `l` and end at `y`. -/
def Links (next : ℕ → ℕ) : ℕ → List ℕ → ℕ → Prop
  | x, [], y => x = y
  | x, s :: l, y => x = s ∧ s ≠ noSymbol ∧ Links next (next s) l y

namespace Links

variable {next next' : ℕ → ℕ} {x y z : ℕ} {l l' : List ℕ}

theorem append (h : Links next x l y) (h' : Links next y l' z) : Links next x (l ++ l') z := by
  induction l generalizing x with
  | nil => cases h; exact h'
  | cons s l ih => exact ⟨h.1, h.2.1, ih h.2.2⟩

theorem congr (h : Links next x l y) (hn : ∀ s ∈ l, next' s = next s) : Links next' x l y := by
  induction l generalizing x with
  | nil => exact h
  | cons s l ih =>
    refine ⟨h.1, h.2.1, ?_⟩
    rw [hn s (by simp)]
    exact ih h.2.2 fun t ht => hn t (List.mem_cons_of_mem s ht)

/-- The links up to the last symbol, and the one after it. -/
theorem last {t : ℕ} (h : Links next x (l ++ [t]) y) :
    Links next x l t ∧ t ≠ noSymbol ∧ next t = y := by
  induction l generalizing x with
  | nil =>
    obtain ⟨rfl, ht, h⟩ := h
    exact ⟨rfl, ht, h⟩
  | cons s l ih =>
    obtain ⟨h1, h2, h3⟩ := h
    obtain ⟨r1, r2, r3⟩ := ih h3
    exact ⟨⟨h1, h2, r1⟩, r2, r3⟩

theorem follow_eq (h : Links next x l noSymbol) : ∀ {fuel : ℕ}, l.length ≤ fuel →
    Builder.follow next fuel x = l := by
  induction l generalizing x with
  | nil =>
    intro fuel _
    cases h
    cases fuel with
    | zero => rfl
    | succ fuel => exact if_pos rfl
  | cons s l ih =>
    intro fuel hf
    obtain ⟨rfl, hs, h⟩ := h
    obtain ⟨fuel, rfl⟩ : ∃ k, fuel = k + 1 :=
      ⟨fuel - 1, by simp only [List.length_cons] at hf; omega⟩
    rw [Builder.follow, if_neg hs, ih h (by simpa using hf)]

/-- Links that count up run through consecutive symbols. -/
theorem range (n start : ℕ) (hlt : start + n < noSymbol)
    (hn : ∀ i, start ≤ i → i < start + n → next i = i + 1) (hlast : next (start + n) = y) :
    Links next start (List.range' start (n + 1)) y := by
  induction n generalizing start with
  | zero => exact ⟨rfl, by omega, hlast⟩
  | succ n ih =>
    rw [List.range'_succ]
    refine ⟨rfl, by omega, ?_⟩
    rw [hn start le_rfl (by omega)]
    exact ih (start + 1) (by omega) (fun i h1 h2 => hn i (by omega) (by omega))
      (by rw [← hlast]; congr 1; omega)

end Links

/-- The builder's lists stand for `lists`, whose symbols are distinct and below `bound`. -/
structure Chained (b : Builder) (lists : ℕ → List ℕ) (bound : ℕ) : Prop where
  links : ∀ ℓ, Links b.next (b.head ℓ) (lists ℓ) noSymbol
  tail : ∀ ℓ, b.tail ℓ = ((lists ℓ).getLast?).getD noSymbol
  counts : ∀ ℓ, b.counts ℓ = (lists ℓ).length
  total : b.total = (symbols lists).length
  zero : lists 0 = []
  lt : ∀ ℓ, ∀ s ∈ lists ℓ, s < bound
  nodup : ∀ ℓ, (lists ℓ).Nodup
  disjoint : ∀ ℓ ℓ' s, s ∈ lists ℓ → s ∈ lists ℓ' → ℓ = ℓ'

namespace Chained

variable {b : Builder} {lists : ℕ → List ℕ} {bound : ℕ}

theorem clear (b : Builder) (bound : ℕ) : Chained b.clear (fun _ => []) bound where
  links _ := rfl
  tail _ := rfl
  counts _ := rfl
  total := by
    have : symbols (fun _ => []) = [] := List.flatMap_eq_nil_iff.mpr fun _ _ => rfl
    rw [this]
    rfl
  zero := rfl
  lt _ _ h := nomatch h
  nodup _ := List.nodup_nil
  disjoint _ _ _ h := nomatch h

theorem mono (h : Chained b lists bound) {bound' : ℕ} (hb : bound ≤ bound') :
    Chained b lists bound' :=
  { h with lt := fun ℓ s hs => lt_of_lt_of_le (h.lt ℓ s hs) hb }

/-- What appending a linked run at the end of one list leads to. -/
theorem append (h : Chained b lists bound) {b' : Builder} {length x : ℕ} {l : List ℕ} {bound' : ℕ}
    (h1 : 1 ≤ length) (h15 : length ≤ 15) (hbb : bound ≤ bound') (hl : l ≠ []) (hnd : l.Nodup)
    (hlt : ∀ s ∈ l, s < bound') (hfresh : ∀ ℓ, ∀ s ∈ l, s ∉ lists ℓ)
    (hnew : Links b'.next x l noSymbol)
    (hlink : b.tail length ≠ noSymbol → b'.next (b.tail length) = x)
    (hkeep : ∀ s, s ∉ l → s ≠ b.tail length → b'.next s = b.next s)
    (hhead : b'.head = if b.tail length = noSymbol then Function.update b.head length x else b.head)
    (htail : b'.tail = Function.update b.tail length (l.getLast hl))
    (hcounts : b'.counts = Function.update b.counts length (b.counts length + l.length))
    (htotal : b'.total = b.total + l.length) :
    Chained b' (appendAt lists length l) bound' := by
  have hother : ∀ ℓ, ℓ ≠ length → Links b'.next (b'.head ℓ) (lists ℓ) noSymbol := fun ℓ hℓ => by
    have hh : b'.head ℓ = b.head ℓ := by
      rw [hhead]
      split
      · exact Function.update_of_ne hℓ _ _
      · rfl
    rw [hh]
    refine (h.links ℓ).congr fun s hs => hkeep s (fun hsl => hfresh ℓ s hsl hs) fun he => ?_
    -- the tail of one list is in no other
    rcases List.eq_nil_or_concat (lists length) with hnil | ⟨l0, t, hcat⟩
    · have hno : s = noSymbol := by rw [he, h.tail, hnil]; rfl
      obtain ⟨l1, l2, hsplit⟩ := List.append_of_mem hs
      have hlinks := h.links ℓ
      rw [hsplit, show l1 ++ s :: l2 = l1 ++ [s] ++ l2 by simp] at hlinks
      have key : ∀ (l1 : List ℕ) (x : ℕ), Links b.next x (l1 ++ [s] ++ l2) noSymbol →
          s ≠ noSymbol := by
        intro l1
        induction l1 with
        | nil => intro x hx; exact hx.2.1
        | cons a l1 ih => intro x hx; exact ih _ hx.2.2
      exact key l1 _ hlinks hno
    · have hst : s = t := by rw [he, h.tail, hcat]; simp
      exact hℓ (h.disjoint ℓ length s hs (by rw [hcat, hst]; simp))
  have hsame : Links b'.next (b'.head length) (lists length ++ l) noSymbol := by
    rcases List.eq_nil_or_concat (lists length) with hnil | ⟨l0, t, hcat⟩
    · have ht : b.tail length = noSymbol := by rw [h.tail, hnil]; rfl
      rw [hnil, hhead, if_pos ht, Function.update_self]
      exact hnew
    · rw [List.concat_eq_append] at hcat
      have ht : b.tail length = t := by rw [h.tail, hcat]; simp
      have hlinks := h.links length
      rw [hcat] at hlinks
      obtain ⟨g1, g2, g3⟩ := hlinks.last
      have hnodup := h.nodup length
      rw [hcat, List.nodup_append] at hnodup
      have hlt0 : Links b'.next (b.head length) l0 t := g1.congr fun s hs =>
        hkeep s (fun hsl => hfresh length s hsl (by rw [hcat]; simp [hs])) fun he =>
          hnodup.2.2 s hs t (by simp) (by rw [he, ht])
      rw [hcat, hhead, if_neg (by rw [ht]; exact g2)]
      refine (hlt0.append ?_).append hnew
      exact ⟨rfl, g2, by rw [← ht]; exact hlink (by rw [ht]; exact g2)⟩
  have hlen : ∀ ℓ, ℓ ≠ length → appendAt lists length l ℓ = lists ℓ :=
    fun ℓ hℓ => Function.update_of_ne hℓ _ _
  have hself : appendAt lists length l length = lists length ++ l := Function.update_self _ _ _
  constructor
  case links =>
    intro ℓ
    by_cases hℓ : ℓ = length
    · subst hℓ; rw [hself]; exact hsame
    · rw [hlen ℓ hℓ]; exact hother ℓ hℓ
  case tail =>
    intro ℓ
    by_cases hℓ : ℓ = length
    · subst hℓ
      rw [hself, htail, Function.update_self, List.getLast?_append,
        List.getLast?_eq_some_getLast hl]
      rfl
    · rw [hlen ℓ hℓ, htail, Function.update_of_ne hℓ, h.tail]
  case counts =>
    intro ℓ
    by_cases hℓ : ℓ = length
    · subst hℓ; rw [hself, hcounts, Function.update_self, h.counts, List.length_append]
    · rw [hlen ℓ hℓ, hcounts, Function.update_of_ne hℓ, h.counts]
  case total => rw [htotal, h.total, symbols_appendAt_length lists l h1 h15]
  case zero => rw [hlen 0 (by omega), h.zero]
  case lt =>
    intro ℓ s hs
    rcases mem_appendAt.mp hs with hs | ⟨-, hs⟩
    · exact lt_of_lt_of_le (h.lt ℓ s hs) hbb
    · exact hlt s hs
  case nodup =>
    intro ℓ
    by_cases hℓ : ℓ = length
    · subst hℓ
      rw [hself, List.nodup_append]
      exact ⟨h.nodup ℓ, hnd, fun s hs t ht he => hfresh ℓ t ht (he ▸ hs)⟩
    · rw [hlen ℓ hℓ]; exact h.nodup ℓ
  case disjoint =>
    intro ℓ ℓ' s hs hs'
    rcases mem_appendAt.mp hs with hs | ⟨e, hs⟩
    · rcases mem_appendAt.mp hs' with hs' | ⟨-, hs'⟩
      · exact h.disjoint ℓ ℓ' s hs hs'
      · exact absurd hs (hfresh ℓ s hs')
    · rcases mem_appendAt.mp hs' with hs' | ⟨e', -⟩
      · exact absurd hs' (hfresh ℓ' s hs)
      · exact e.trans e'.symm

theorem push (h : Chained b lists bound) {symbol length : ℕ} (h1 : 1 ≤ length) (h15 : length ≤ 15)
    (hs : symbol < noSymbol) (hfresh : ∀ ℓ, symbol ∉ lists ℓ) :
    Chained (b.push symbol length) (appendAt lists length [symbol]) (max bound (symbol + 1)) := by
  have hne : b.tail length ≠ noSymbol → b.tail length ≠ symbol := fun hno he => by
    rcases List.eq_nil_or_concat (lists length) with hnil | ⟨l0, t, hcat⟩
    · exact hno (by rw [h.tail, hnil]; rfl)
    · have ht : b.tail length = t := by rw [h.tail, hcat]; simp
      exact hfresh length (by rw [← he, ht, hcat]; simp)
  have hnext : (b.push symbol length).next =
    Function.update (if b.tail length = noSymbol then b.next
      else Function.update b.next (b.tail length) symbol) symbol noSymbol := by
    unfold Builder.push; dsimp only; split <;> rfl
  have hhead : (b.push symbol length).head = if b.tail length = noSymbol then
      Function.update b.head length symbol else b.head := by
        unfold Builder.push; dsimp only; split <;> rfl
  have htail : (b.push symbol length).tail = Function.update b.tail length symbol := by
    unfold Builder.push; dsimp only; split <;> rfl
  have hcounts : (b.push symbol length).counts =
      Function.update b.counts length (b.counts length + 1) := by
    unfold Builder.push; dsimp only; split <;> rfl
  have htotal : (b.push symbol length).total = b.total + 1 := by
    unfold Builder.push; dsimp only; split <;> rfl
  refine h.append (x := symbol) h1 h15 (le_max_left _ _) (by simp) (by simp) (by simp)
    (by simpa using hfresh)
    ⟨rfl, by omega, ?_⟩ (fun hno => ?_) (fun s hsl hst => ?_) hhead htail hcounts htotal
  · rw [hnext, Function.update_self]
    rfl
  · rw [hnext, Function.update_of_ne (hne hno), if_neg hno, Function.update_self]
  · rw [hnext, Function.update_of_ne (by simpa using hsl)]
    split
    · rfl
    · exact Function.update_of_ne hst _ _

theorem pushRun (h : Chained b lists bound) {start stop length : ℕ} (h1 : 1 ≤ length)
    (h15 : length ≤ 15)
    (hlt : start < stop) (hstop : stop ≤ noSymbol) (hstart : bound ≤ start) :
    Chained (b.pushRun start stop length)
    (appendAt lists length (List.range' start (stop - start))) stop := by
  have hfresh : ∀ ℓ, ∀ s, start ≤ s → s ∉ lists ℓ := fun ℓ s hs hmem => by
    have := h.lt ℓ s hmem
    omega
  have htaillt : b.tail length = noSymbol ∨ b.tail length < start := by
    rcases List.eq_nil_or_concat (lists length) with hnil | ⟨l0, t, hcat⟩
    · exact Or.inl (by rw [h.tail, hnil]; rfl)
    · have ht : b.tail length = t := by rw [h.tail, hcat]; simp
      have := h.lt length t (by rw [hcat]; simp)
      exact Or.inr (by omega)
  obtain ⟨n, hn⟩ : ∃ n, stop - start = n + 1 := ⟨stop - start - 1, by omega⟩
  have hnil : List.range' start (stop - start) ≠ [] := by rw [hn]; simp
  have hpush : (b.pushRun start stop length).next = if b.tail length = noSymbol then
      fun i => if start ≤ i ∧ i < stop - 1 then i + 1 else if i = stop - 1
        then noSymbol else b.next i
      else Function.update (fun i => if start ≤ i ∧ i < stop - 1 then i + 1
        else if i = stop - 1 then noSymbol
        else b.next i) (b.tail length) start := by unfold Builder.pushRun; dsimp only; split <;> rfl
  have hnext : ∀ i, i ≠ b.tail length ∨ b.tail length = noSymbol →
    (b.pushRun start stop length).next i =
      if start ≤ i ∧ i < stop - 1 then i + 1 else if i = stop - 1 then noSymbol else b.next i :=
      fun i hi => by
    rw [hpush]
    split
    · rfl
    · rename_i hno
      rw [Function.update_of_ne (hi.resolve_right hno)]
  have hhead : (b.pushRun start stop length).head = if b.tail length = noSymbol then
      Function.update b.head length start else b.head := by
        unfold Builder.pushRun; dsimp only; split <;> rfl
  have htail : (b.pushRun start stop length).tail = Function.update b.tail length (stop - 1) := by
    unfold Builder.pushRun; dsimp only; split <;> rfl
  have hcounts : (b.pushRun start stop length).counts =
      Function.update b.counts length (b.counts length + (stop - start)) := by
    unfold Builder.pushRun; dsimp only; split <;> rfl
  have htotal : (b.pushRun start stop length).total = b.total + (stop - start) := by
    unfold Builder.pushRun; dsimp only; split <;> rfl
  refine h.append (x := start) h1 h15 (by omega) hnil List.nodup_range' (fun s hs => ?_)
    (fun ℓ s hs => ?_) ?_
    (fun hno => ?_) (fun s hs hst => ?_) hhead ?_ (by rw [hcounts, List.length_range'])
    (by rw [htotal, List.length_range'])
  · have := List.mem_range'_1.mp hs
    omega
  · exact hfresh ℓ s (List.mem_range'_1.mp hs).1
  · have hout : ∀ i, start ≤ i → i ≠ b.tail length ∨ b.tail length = noSymbol := fun i hi => by
      rcases htaillt with ht | ht
      · exact Or.inr ht
      · exact Or.inl (by omega)
    rw [hn]
    refine Links.range n start (by omega) (fun i hi1 hi2 => ?_) ?_
    · rw [hnext i (hout i hi1), if_pos (by omega)]
    · rw [hnext _ (hout _ (by omega)), if_neg (by omega), if_pos (by omega)]
  · rw [hpush, if_neg hno, Function.update_self]
  · have hout : ¬ (start ≤ s ∧ s < stop) := fun hc => hs (List.mem_range'_1.mpr (by omega))
    rw [hnext s (Or.inl hst), if_neg (by omega), if_neg (by omega)]
  · rw [htail]
    congr 1
    rw [List.getLast_range']
    omega

/-- A chained builder is ready to be filled in. -/
theorem listed (h : Chained b lists bound) (hb : bound ≤ maxAlphabet)
    (hlast : symbols lists ≠ [] → b.last ∈ symbols lists ∧ ∀ s ∈ symbols lists, s ≤ b.last) :
    Listed b lists where
  zero := h.zero
  chain ℓ := by
    refine (h.links ℓ).follow_eq ?_
    have hsub : (lists ℓ) ⊆ List.range maxAlphabet := fun s hs =>
      List.mem_range.mpr (lt_of_lt_of_le (h.lt ℓ s hs) hb)
    have := (h.nodup ℓ).length_le_of_subset hsub
    rw [List.length_range] at this
    omega
  counts := h.counts
  total := h.total
  last hne := by
    obtain ⟨hmem, hmax⟩ := hlast hne
    have key : ∀ (l : List ℕ) (m : ℕ), (∀ s ∈ l, s ≤ b.last) → m ≤ b.last →
      (b.last ∈ l ∨ m = b.last) →
        l.foldl max m = b.last := by
      intro l
      induction l with
      | nil => intro m _ _ h; rcases h with h | h <;> [cases h; exact h]
      | cons a l ih =>
        intro m hl hm h
        have ha := hl a (by simp)
        refine ih (max m a) (fun s hs => hl s (List.mem_cons_of_mem a hs)) (by omega) ?_
        rcases h with h | h
        · rcases List.mem_cons.mp h with h | h
          · exact Or.inr (by omega)
          · exact Or.inl h
        · exact Or.inr (by omega)
    exact (key _ 0 hmax (Nat.zero_le _) (Or.inl hmem)).symm

end Chained

/-! ### The code-length code -/

namespace LengthCode

variable {lengths : ℕ → ℕ}

/-- The symbols of each code length. -/
def lists (lengths : ℕ → ℕ) (ℓ : ℕ) : List ℕ :=
  if 1 ≤ ℓ ∧ ℓ ≤ lengthBits then symbolsOf lengths ℓ else []

/-- The symbols with a length. -/
def used (lengths : ℕ → ℕ) (l : List ℕ) : ℕ := (l.filter fun s => lengths s ≠ 0).length

/-- The share of the code space they take, in thirty-seconds. -/
def spent (lengths : ℕ → ℕ) (l : List ℕ) : ℕ :=
  (l.map fun s => if lengths s = 0 then 0 else 32 >>> lengths s).sum

theorem lists_of_lt {ℓ : ℕ} (h : lengthBits < ℓ) : lists lengths ℓ = [] := if_neg (by omega)

theorem mem_lists {ℓ s : ℕ} : s ∈ lists lengths ℓ ↔ s < 18 ∧ lengths s = ℓ ∧ 1 ≤ ℓ ∧
    ℓ ≤ lengthBits := by
  unfold lists symbolsOf
  split
  · simp; omega
  · simp; omega

theorem symbols_length (h5 : ∀ s, s < 18 → lengths s ≤ lengthBits) :
    (symbols (lists lengths)).length = used lengths (List.range 18) := by
  have hone : ∀ a, a ≤ 5 → ((List.range' 1 5).map fun ℓ => if a = ℓ then 1 else 0).sum =
      if a ≠ 0 then 1 else 0 := by
    decide
  have key : ∀ l : List ℕ, (∀ s ∈ l, lengths s ≤ 5) →
      ((List.range' 1 5).map fun ℓ => (l.filter fun s => lengths s = ℓ).length).sum =
      used lengths l := by
    intro l
    induction l with
    | nil => intro _; rfl
    | cons a l ih =>
      intro hl
      have hstep :
        ((List.range' 1 5).map fun ℓ => ((a :: l).filter fun s => lengths s = ℓ).length).sum =
          ((List.range' 1 5).map fun ℓ => if lengths a = ℓ then 1 else 0).sum +
            ((List.range' 1 5).map fun ℓ => (l.filter fun s => lengths s = ℓ).length).sum := by
        rw [← List.sum_map_add]
        congr 1
        refine List.map_congr_left fun ℓ _ => ?_
        by_cases hℓ : lengths a = ℓ
        · simp [hℓ, Nat.add_comm]
        · simp [hℓ]
      rw [hstep, hone _ (hl a (by simp)), ih fun s hs => hl s (List.mem_cons_of_mem a hs)]
      by_cases ha : lengths a = 0
      · simp [used, ha]
      · simp [used, ha, Nat.add_comm]
  rw [symbols, show List.range' 1 Canonical.maxLength =
    List.range' 1 5 ++ List.range' 6 10 by decide,
    List.flatMap_append, List.length_append]
  have h2 : (List.range' 6 10).flatMap (lists lengths) = [] :=
    List.flatMap_eq_nil_iff.mpr fun ℓ hℓ =>
    lists_of_lt (by have := (List.mem_range'_1.mp hℓ).1; simp only [lengthBits]; omega)
  rw [h2, List.length_flatMap, ← key (List.range 18) fun s hs => h5 s (List.mem_range.mp hs)]
  simp only [List.length_nil, Nat.add_zero]
  refine congrArg List.sum (List.map_congr_left fun ℓ hℓ => ?_)
  have := List.mem_range'_1.mp hℓ
  rw [lists, if_pos ⟨by omega, by simp only [lengthBits]; omega⟩]
  rfl

/-- The code space up to length `m`. -/
theorem first_add_length (m : ℕ) (hm : m ≤ 5) : first (lists lengths) m + (lists lengths m).length =
    ((List.range 18).map fun s => if 1 ≤ lengths s ∧ lengths s ≤ m then 2 ^ (m - lengths s)
      else 0).sum := by
  induction m with
  | zero =>
    have : ((List.range 18).map fun s => if 1 ≤ lengths s ∧ lengths s ≤ 0 then 2 ^ (0 - lengths s)
        else 0).sum = 0 := by
      refine List.sum_eq_zero fun x hx => ?_
      obtain ⟨s, -, rfl⟩ := List.mem_map.mp hx
      exact if_neg (by omega)
    rw [this]
    simp [first, lists]
  | succ m ih =>
    have key : ∀ l : List ℕ, (l.map fun s => if 1 ≤ lengths s ∧ lengths s ≤ m + 1
      then 2 ^ (m + 1 - lengths s) else 0).sum =
        2 * (l.map fun s => if 1 ≤ lengths s ∧ lengths s ≤ m then 2 ^ (m - lengths s) else 0).sum +
          (l.filter fun s => lengths s = m + 1).length := by
      intro l
      induction l with
      | nil => rfl
      | cons a l ihl =>
        simp only [List.map_cons, List.sum_cons, ihl, List.filter_cons]
        by_cases h1 : lengths a = m + 1
        · simp [h1]; omega
        · by_cases h2 : 1 ≤ lengths a ∧ lengths a ≤ m
          · rw [if_pos (by omega), if_pos h2, show m + 1 - lengths a =
              m - lengths a + 1 by omega, pow_succ]
            simp only [h1, decide_false, Bool.false_eq_true, if_false]
            omega
          · rw [if_neg (by omega), if_neg h2]
            simp only [h1, decide_false, Bool.false_eq_true, if_false]
            omega
    rw [first, ih (by omega), key, lists, if_pos ⟨by omega, hm⟩]
    rfl

theorem complete_lists (h5 : ∀ s, s < 18 → lengths s ≤ lengthBits)
    (h : spent lengths (List.range 18) = 32) :
    Complete (lists lengths) := by
  refine ⟨rfl, ?_⟩
  have h32 : first (lists lengths) 5 + (lists lengths 5).length = 32 := by
    refine (first_add_length 5 le_rfl).trans (Eq.trans ?_ h)
    refine congrArg List.sum (List.map_congr_left fun s hs => ?_)
    have hs5 := h5 s (List.mem_range.mp hs)
    simp only [lengthBits] at hs5
    by_cases h0 : lengths s = 0
    · rw [if_pos h0, if_neg (by omega)]
    · rw [if_neg h0, if_pos (by omega), Nat.shiftRight_eq_div_pow,
        show 32 = 2 ^ lengths s * 2 ^ (5 - lengths s) by
          rw [← pow_add, show lengths s + (5 - lengths s) = 5 by omega]; rfl,
        Nat.mul_div_cancel_left _ (Nat.two_pow_pos _)]
  have hlong : ∀ k, first (lists lengths) (5 + k) + (lists lengths (5 + k)).length =
      2 ^ (5 + k) := by
    intro k
    induction k with
    | zero => exact h32
    | succ k ih =>
      rw [← Nat.add_assoc, first, ih, lists_of_lt (by simp only [lengthBits]; omega), pow_succ]
      simp only [List.length_nil]
      omega
  have h15 := hlong 10
  rw [show 5 + 10 = Canonical.maxLength from rfl] at h15
  exact h15

theorem place_eq (length : ℕ) : ∀ (l : List ℕ) (code : ℕ) (table : ℕ → Code),
    place length l code table = Builder.placeRoot 0 (2 ^ 5) length l code table
  | [], _, _ => rfl
  | _ :: l, code, _ => place_eq length l (code + 1) _

theorem fill_shown (hc : Complete (lists lengths)) (n : ℕ) :
    ∀ (ℓ : ℕ) (table : ℕ → Code), 1 ≤ ℓ → ℓ + n = 6 →
    (∀ ℓ' j, ℓ ≤ ℓ' → ℓ' ≤ 5 → j < (lists lengths ℓ').length →
      RootShown (lists lengths) (fill lengths (List.range' ℓ n) (first (lists lengths) ℓ) table) 0
      (2 ^ 5) ℓ' j) ∧
    ∀ ℓ' j, RootShown (lists lengths) table 0 (2 ^ 5) ℓ' j →
      RootShown (lists lengths) (fill lengths (List.range' ℓ n) (first (lists lengths) ℓ) table) 0
      (2 ^ 5) ℓ' j := by
  induction n with
  | zero => intro ℓ _ _ hℓ; exact ⟨fun ℓ' j h1 h2 => by omega, fun _ _ h => h⟩
  | succ n ih =>
    intro ℓ table h1 hℓ
    have hlist : symbolsOf lengths ℓ = lists lengths ℓ :=
      (if_pos ⟨h1, by simp only [lengthBits]; omega⟩).symm
    obtain ⟨p1, p2, p3, -⟩ :=
      placeRoot_spec hc 0 h1 (show ℓ ≤ 5 by omega) (by omega) 0 table (Nat.zero_le _)
    rw [List.drop_zero, Nat.add_zero] at p1 p2 p3
    obtain ⟨r1, r2⟩ :=
      ih (ℓ + 1) (Builder.placeRoot 0 (2 ^ 5) ℓ (lists lengths ℓ) (first (lists lengths) ℓ) table).2
        (by omega) (by omega)
    rw [List.range'_succ]
    simp only [fill, hlist, place_eq, p1]
    rw [Nat.mul_comm _ 2]
    change _ ∧ ∀ ℓ' j, _ →
      RootShown (lists lengths) (fill lengths _ (first (lists lengths) (ℓ + 1)) _) _ _ _ _
    refine ⟨fun ℓ' j hl1 hl2 hj => ?_, fun ℓ' j h => r2 ℓ' j (p3 ℓ' j h)⟩
    rcases Nat.eq_or_lt_of_le hl1 with rfl | hl1
    · exact r2 ℓ j (p2 j (Nat.zero_le _) hj)
    · exact r1 ℓ' j hl1 hl2 hj

/-- The table looks up the code of the lengths: a single symbol, or a complete code. -/
theorem lookup_build (h5 : ∀ s, s < 18 → lengths s ≤ lengthBits)
    (h : used lengths (List.range 18) = 1 ∨ spent lengths (List.range 18) = 32) :
    ∃ c, PrefixCode.ofLists (lists lengths) = some c ∧
      ∀ v, (build lengths (used lengths (List.range 18))).lookup v = c.lookup v ∧
      (c.lookup v).2 ≤ lengthBits := by
  have hlen := symbols_length h5
  by_cases h1 : used lengths (List.range 18) = 1
  · obtain ⟨t, ht⟩ := List.length_eq_one_iff.mp (hlen.trans h1)
    refine ⟨⟨lists lengths, some t, fun h => by cases h⟩, by simp only [PrefixCode.ofLists, ht],
      fun v => ?_⟩
    have hfind : ((List.range 18).find? fun s => lengths s ≠ 0).getD 0 = t := by
      cases hf : (List.range 18).find? fun s => lengths s ≠ 0 with
      | none =>
        have hmem : t ∈ symbols (lists lengths) := by rw [ht]; simp
        obtain ⟨ℓ, h1, -, hm⟩ := mem_symbols.mp hmem
        obtain ⟨m1, m2, m3, -⟩ := mem_lists.mp hm
        have := List.find?_eq_none.mp hf t (List.mem_range.mpr m1)
        simp at this
        omega
      | some s =>
        have hs := List.find?_some hf
        have hr := List.mem_range.mp (List.mem_of_find?_eq_some hf)
        have hmem : s ∈ symbols (lists lengths) := mem_symbols.mpr ⟨lengths s, by
          simp at hs; omega, le_trans (h5 s hr) (by decide),
            mem_lists.mpr ⟨hr, rfl, by simp at hs; omega, h5 s hr⟩⟩
        rw [ht] at hmem
        simpa using hmem
    rw [build, if_pos h1]
    exact ⟨by simp only [lookup, PrefixCode.lookup, hfind], by simp [PrefixCode.lookup]⟩
  · have hc := complete_lists h5 (h.resolve_left h1)
    have hof : PrefixCode.ofLists (lists lengths) = some ⟨lists lengths, none, fun _ => hc⟩ := by
      unfold PrefixCode.ofLists
      split
      · rename_i hnil
        obtain ⟨ℓ, j, e1, e2, hm⟩ := exists_match hc 0
        have : (lists lengths ℓ).get ⟨j, hm.1⟩ ∈ symbols (lists lengths) :=
          mem_symbols.mpr ⟨ℓ, e1, e2, List.getElem_mem hm.1⟩
        rw [hnil] at this
        cases this
      · rename_i s hs
        rw [hs] at hlen
        exact absurd hlen.symm h1
      · exact dif_pos hc
    refine ⟨_, hof, fun v => ?_⟩
    obtain ⟨ℓ, j, e1, e2, hm⟩ := exists_match hc v
    have hℓ5 : ℓ ≤ lengthBits := by
      by_contra hlt
      have := hm.1
      rw [lists_of_lt (by omega)] at this
      exact Nat.not_lt_zero j this
    rw [PrefixCode.lookup_of_match rfl e1 e2 hm, build, if_neg h1]
    refine ⟨?_, hℓ5⟩
    have hshown :=
      (fill_shown hc 5 1 (fun _ => {}) le_rfl rfl).1 ℓ j e1 hℓ5 hm.1 (v % 2 ^ 5)
        (Nat.mod_lt _ (by decide))
        (hm.of_mod_eq (Nat.mod_mod_of_dvd _ (pow_dvd_pow 2 hℓ5)))
    rw [Nat.zero_add] at hshown
    show (Prod.mk _ _ : ℕ × ℕ) = _
    have hfirst : first (lists lengths) 1 = 0 := rfl
    rw [hfirst] at hshown
    simp only [lengthSize]
    rw [show (32 : ℕ) = 2 ^ 5 from rfl]
    exact congrArg (fun c : Code => (c.value, c.bits)) hshown

end LengthCode
end Mbrotli
