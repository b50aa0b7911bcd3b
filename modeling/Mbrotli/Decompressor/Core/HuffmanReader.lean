/-
# Reading a code description

`Builder.Reading` says what a builder holds at each stage of a description: the
symbols of a simple code are distinct and below the alphabet; of a complex one the
code lengths read so far, their number and the code space they leave; then the lists
of the symbols read. Every round keeps it (`step_gives`), and the round that completes
a description leaves a builder that `fill` accepts (`Described`).
-/
import Mathlib.Data.List.Nodup
import Mathlib.Tactic.IntervalCases
import Mbrotli.Decompressor.Core.HuffmanLists

namespace Mbrotli

open Canonical

theorem foldl_max_spec : ∀ (l : List ℕ) (m : ℕ),
    (l.foldl max m = m ∨ l.foldl max m ∈ l) ∧ m ≤ l.foldl max m ∧ ∀ s ∈ l, s ≤ l.foldl max m
  | [], _ => ⟨Or.inl rfl, le_rfl, fun _ h => nomatch h⟩
  | a :: l, m => by
    obtain ⟨h1, h2, h3⟩ := foldl_max_spec l (max m a)
    rw [List.foldl_cons]
    refine ⟨?_, by omega, ?_⟩
    · rcases h1 with h1 | h1
      · rcases le_total m a with h | h
        · exact Or.inr (by rw [h1, max_eq_right h]; exact List.mem_cons_self)
        · exact Or.inl (by rw [h1, max_eq_left h])
      · exact Or.inr (List.mem_cons_of_mem _ h1)
    · rintro s (_ | ⟨_, hs⟩)
      · omega
      · exact h3 s hs

/-- The greatest of some numbers is one of them. -/
theorem foldl_max_mem {l : List ℕ} (h : l ≠ []) : l.foldl max 0 ∈ l := by
  obtain ⟨h1, -, h3⟩ := foldl_max_spec l 0
  rcases h1 with h1 | h1
  · obtain ⟨s, hs⟩ := List.exists_mem_of_ne_nil l h
    have := h3 s hs
    rw [h1] at this ⊢
    obtain rfl : s = 0 := by omega
    exact hs
  · exact h1

/-! ### The code lengths -/

namespace LengthCode

variable {lengths : ℕ → ℕ} {s v : ℕ} {l : List ℕ}

theorem used_update (h0 : lengths s = 0) (hl : l.Nodup) (hs : s ∈ l) :
    used (Function.update lengths s v) l = used lengths l + if v ≠ 0 then 1 else 0 := by
  have hsame : ∀ l : List ℕ, s ∉ l → used (Function.update lengths s v) l = used lengths l :=
    fun l hl => by
    unfold used
    congr 1
    apply List.filter_congr
    intro t ht
    have hne : t ≠ s := fun he => hl (he ▸ ht)
    rw [Function.update_of_ne hne]
  induction l with
  | nil => cases hs
  | cons a l ih =>
    obtain ⟨ha, hl⟩ := List.nodup_cons.mp hl
    by_cases has : a = s
    · subst has
      have hrest := hsame l ha
      unfold used at hrest ⊢
      simp only [List.filter_cons, Function.update_self, h0]
      by_cases hv : v = 0
      · simpa [hv] using hrest
      · simpa [hv] using hrest
    · have hrest := ih hl ((List.mem_cons.mp hs).resolve_left (Ne.symm has))
      unfold used at hrest ⊢
      by_cases hz : lengths a = 0
      · simpa [has, hz] using hrest
      · simp only [List.filter_cons, Function.update_of_ne has, hz, ne_eq, not_false_eq_true,
          decide_true, if_true,
          List.length_cons, hrest]
        omega

theorem spent_update (h0 : lengths s = 0) (hl : l.Nodup) (hs : s ∈ l) :
    spent (Function.update lengths s v) l = spent lengths l + if v ≠ 0 then 32 >>> v else 0 := by
  have hsame : ∀ l : List ℕ, s ∉ l → spent (Function.update lengths s v) l = spent lengths l :=
    fun l hl => by
    unfold spent
    congr 1
    apply List.map_congr_left
    intro t ht
    have hne : t ≠ s := fun he => hl (he ▸ ht)
    rw [Function.update_of_ne hne]
  induction l with
  | nil => cases hs
  | cons a l ih =>
    obtain ⟨ha, hl⟩ := List.nodup_cons.mp hl
    by_cases has : a = s
    · subst has
      have hrest := hsame l ha
      unfold spent at hrest ⊢
      simp only [List.map_cons, List.sum_cons, Function.update_self, h0, hrest]
      by_cases hv : v = 0
      · simp [hv]
      · simp [hv, Nat.add_comm]
    · have hrest := ih hl ((List.mem_cons.mp hs).resolve_left (Ne.symm has))
      unfold spent at hrest ⊢
      simp only [List.map_cons, List.sum_cons, Function.update_of_ne has, hrest]
      omega

end LengthCode

namespace Builder

variable {alphabet : ℕ} {b : Builder}

/-- The first `n` symbols of a simple code. -/
structure Simple (alphabet n : ℕ) (b : Builder) : Prop where
  lt : ∀ i, i < n → b.symbols i < alphabet
  inj : ∀ i j, i < n → j < n → b.symbols i = b.symbols j → i = j

/-- The code lengths read so far. -/
structure Lengths (b : Builder) : Prop where
  index : b.index ≤ 18
  unread : ∀ k, b.index ≤ k → k < 18 → b.small (order.getD k 0) = 0
  le : ∀ s, b.small s ≤ lengthBits
  count : b.count = LengthCode.used b.small (List.range 18)
  space : b.space = 32 - (LengthCode.spent b.small (List.range 18) : ℤ)

/-- The lists of the symbols read so far, and the code they are read with. -/
structure Listing (alphabet : ℕ) (b : Builder) : Prop where
  code : ∃ c : PrefixCode, ∀ v, b.code.lookup v = c.lookup v ∧ (c.lookup v).2 ≤ lengthBits ∧
    (c.lookup v).1 < 18
  lists : ∃ lists, Chained b lists b.index ∧
    (Canonical.symbols lists ≠ [] → b.last ∈ Canonical.symbols lists ∧
      ∀ s ∈ Canonical.symbols lists, s ≤ b.last)
  previous : 1 ≤ b.previous ∧ b.previous ≤ 15
  index : b.index ≤ alphabet

/-- What a builder holds at each stage of a description. -/
def Reading (alphabet : ℕ) (b : Builder) : Prop :=
  match b.stage with
  | .start | .simpleCount => True
  | .simpleSymbols => 1 ≤ b.count ∧ b.count ≤ 4 ∧ b.index ≤ b.count ∧ b.Simple alphabet b.index
  | .simpleShape => 1 ≤ b.count ∧ b.count ≤ 4 ∧ b.Simple alphabet b.count
  | .codeLengths => b.Lengths
  | .symbols => b.Listing alphabet
  | .repeat symbol => b.Listing alphabet ∧ (symbol = 16 ∨ symbol = 17)

/-- The builder holds a description of symbols of the alphabet. -/
def Described (alphabet : ℕ) (b : Builder) : Prop :=
  ∃ lists, Listed b lists ∧ ∀ s ∈ Canonical.symbols lists, s < alphabet

/-- The lists of two builders are the same. -/
structure SameLists (b b' : Builder) : Prop where
  next : b'.next = b.next
  head : b'.head = b.head
  tail : b'.tail = b.tail
  counts : b'.counts = b.counts
  total : b'.total = b.total

theorem SameLists.chained {b' : Builder} {lists : ℕ → List ℕ} {bound : ℕ} (h : SameLists b b')
    (hc : Chained b lists bound) :
    Chained b' lists bound := by
  obtain ⟨h1, h2, h3, h4, h5⟩ := h
  exact ⟨by rw [h1, h2]; exact hc.links, by rw [h3]; exact hc.tail, by rw [h4]; exact hc.counts,
    by rw [h5]; exact hc.total, hc.zero, hc.lt, hc.nodup, hc.disjoint⟩

theorem reading_lengths (hs : b.stage = .codeLengths) (h : b.Lengths) : b.Reading alphabet := by
  unfold Reading
  rw [hs]
  exact h

theorem reading_listing (hs : b.stage = .symbols) (h : b.Listing alphabet) :
    b.Reading alphabet := by
  unfold Reading
  rw [hs]
  exact h

/-! ### Simple codes -/

theorem insertPair_perm (p : ℕ × ℕ) : ∀ l, (insertPair p l).Perm (p :: l)
  | [] => .refl _
  | q :: rest => by
    unfold insertPair
    split
    · exact .refl _
    · exact ((insertPair_perm p rest).cons q).trans (.swap p q rest)

theorem shapePairs_perm (symbols : ℕ → ℕ) (count shape : ℕ) :
    (shapePairs symbols count shape).Perm
      ((List.range count).map fun i => ((shapeLengths count shape).getD i 0, symbols i)) := by
  have key : ∀ (l acc : List (ℕ × ℕ)),
      (l.foldl (fun acc p => insertPair p acc) acc).Perm (l ++ acc) := by
    intro l
    induction l with
    | nil => exact fun acc => .refl acc
    | cons p l ih =>
      intro acc
      exact (ih (insertPair p acc)).trans
        (((insertPair_perm p acc).append_left l).trans List.perm_middle)
  simpa [shapePairs] using key _ []

theorem shapeLengths_range {count : ℕ} (h1 : 1 ≤ count) (h4 : count ≤ 4) (shape : ℕ) {i : ℕ}
    (hi : i < count) :
    1 ≤ (shapeLengths count shape).getD i 0 ∧ (shapeLengths count shape).getD i 0 ≤ 15 := by
  interval_cases count <;> interval_cases i <;> simp [shapeLengths] <;> split <;> simp

/-- The lists of distinct symbols with their lengths. -/
theorem pushPairs_chained : ∀ (pairs : List (ℕ × ℕ)) (b : Builder) (lists : ℕ → List ℕ),
    alphabet ≤ noSymbol →
    Chained b lists alphabet → (∀ p ∈ pairs, 1 ≤ p.1 ∧ p.1 ≤ 15 ∧ p.2 < alphabet) →
    (pairs.map Prod.snd).Nodup →
    (∀ p ∈ pairs, ∀ ℓ, p.2 ∉ lists ℓ) → ∃ lists', Chained (pushPairs b pairs) lists' alphabet ∧
      ∀ s, s ∈ Canonical.symbols lists' ↔ s ∈ Canonical.symbols lists ∨ s ∈ pairs.map Prod.snd
  | [], b, lists, _, h, _, _, _ => ⟨lists, h, by simp⟩
  | p :: pairs, b, lists, ha, h, hp, hnd, hfresh => by
    obtain ⟨h1, h15, hlt⟩ := hp p List.mem_cons_self
    obtain ⟨hnotin, hnd⟩ := List.nodup_cons.mp hnd
    have hpush := h.push h1 h15 (by omega) (hfresh p List.mem_cons_self)
    rw [max_eq_left (by omega)] at hpush
    obtain ⟨lists', hc, hmem⟩ := pushPairs_chained pairs (b.push p.2 p.1) _ ha hpush
      (fun q hq => hp q (List.mem_cons_of_mem _ hq)) hnd fun q hq ℓ hq' => by
        rcases mem_appendAt.mp hq' with hq' | ⟨-, hq'⟩
        · exact hfresh q (List.mem_cons_of_mem _ hq) ℓ hq'
        · exact hnotin (List.mem_singleton.mp hq' ▸ List.mem_map_of_mem hq)
    refine ⟨lists', hc, fun s => ?_⟩
    rw [hmem, mem_symbols_appendAt h1 h15]
    simp [or_assoc]

/-- The lists of a simple code. -/
theorem Simple.described (h : b.Simple alphabet b.count) (ha : alphabet ≤ maxAlphabet)
    (h1 : 1 ≤ b.count)
    (h4 : b.count ≤ 4) (shape : ℕ) :
    Described alphabet { pushPairs b.clear (shapePairs b.symbols b.count shape) with
      last := ((shapePairs b.symbols b.count shape).map Prod.snd).foldl max 0,
      stage := .start } := by
  have hperm := shapePairs_perm b.symbols b.count shape
  have hmem : ∀ p ∈ shapePairs b.symbols b.count shape, 1 ≤ p.1 ∧ p.1 ≤ 15 ∧ p.2 < alphabet :=
    fun p hp => by
    obtain ⟨i, hi, rfl⟩ := List.mem_map.mp (hperm.mem_iff.mp hp)
    have hi := List.mem_range.mp hi
    obtain ⟨r1, r15⟩ := shapeLengths_range h1 h4 shape hi
    exact ⟨r1, r15, h.lt i hi⟩
  have hnd : ((shapePairs b.symbols b.count shape).map Prod.snd).Nodup := by
    rw [(hperm.map Prod.snd).nodup_iff, List.map_map]
    refine (List.nodup_map_iff_inj_on List.nodup_range).mpr ?_
    intro i hi j hj he
    exact h.inj i j (List.mem_range.mp hi) (List.mem_range.mp hj) he
  have hne : (shapePairs b.symbols b.count shape).map Prod.snd ≠ [] := by
    intro he
    have := (hperm.map Prod.snd).length_eq
    rw [he] at this
    simp at this
    omega
  obtain ⟨lists, hc, hsym⟩ :=
    pushPairs_chained (shapePairs b.symbols b.count shape) b.clear _ (le_trans ha (by decide))
      (Chained.clear b alphabet) hmem hnd fun p _ ℓ hp => nomatch hp
  have hsym' : ∀ s, s ∈ Canonical.symbols lists ↔
    s ∈ (shapePairs b.symbols b.count shape).map Prod.snd := fun s => by
    rw [hsym, or_iff_right]
    simp [mem_symbols]
  have hlast := foldl_max_spec ((shapePairs b.symbols b.count shape).map Prod.snd) 0
  have hsame : SameLists (pushPairs b.clear (shapePairs b.symbols b.count shape))
      { pushPairs b.clear (shapePairs b.symbols b.count shape) with
        last := ((shapePairs b.symbols b.count shape).map Prod.snd).foldl max 0,
            stage := .start } :=
    ⟨rfl, rfl, rfl, rfl, rfl⟩
  refine ⟨lists, (hsame.chained hc).listed ha fun _ => ?_, fun s hs => ?_⟩
  · exact ⟨(hsym' _).mpr (foldl_max_mem hne), fun s hs => hlast.2.2 s ((hsym' s).mp hs)⟩
  · obtain ⟨p, hp, rfl⟩ := List.mem_map.mp ((hsym' s).mp hs)
    exact (hmem p hp).2.2

/-! ### Complex codes -/

theorem lengths_start (hi : b.index ≤ 18) (hs : b.small = fun _ => 0) (hc : b.count = 0)
    (h32 : b.space = 32) : b.Lengths where
  index := hi
  unread _ _ _ := by rw [hs]
  le _ := by rw [hs]; exact Nat.zero_le _
  count := by
    rw [hc, hs]
    decide
  space := by
    rw [h32, hs]
    decide

theorem order_lt : ∀ k, k < 18 → order.getD k 0 < 18 := by decide

theorem order_inj : ∀ k, k < 18 → ∀ j, j < 18 → order.getD k 0 = order.getD j 0 → k = j := by decide

/-- One more code length is read. -/
theorem Lengths.read (h : b.Lengths) (hi : b.index < 18) {value : ℕ} (hv : value ≤ lengthBits)
    {b' : Builder}
    (hsmall : b'.small = Function.update b.small (order.getD b.index 0) value)
    (hindex : b'.index = b.index + 1)
    (hcount : b'.count = b.count + if value ≠ 0 then 1 else 0)
    (hspace : b'.space = b.space - ((if value ≠ 0 then 32 >>> value else 0 : ℕ) : ℤ)) :
    b'.Lengths := by
  have h0 := h.unread b.index le_rfl hi
  have hmem : order.getD b.index 0 ∈ List.range 18 := List.mem_range.mpr (order_lt _ hi)
  refine ⟨by omega, fun k hk hk' => ?_, fun s => ?_, ?_, ?_⟩
  · have hne : order.getD k 0 ≠ order.getD b.index 0 := fun he => by
      have := order_inj k hk' b.index hi he
      omega
    rw [hsmall, Function.update_of_ne hne]
    exact h.unread k (by omega) hk'
  · rw [hsmall]
    by_cases hs : s = order.getD b.index 0
    · rw [hs, Function.update_self]
      exact hv
    · rw [Function.update_of_ne hs]
      exact h.le s
  · rw [hcount, hsmall, LengthCode.used_update h0 List.nodup_range hmem, h.count]
  · rw [hspace, hsmall, LengthCode.spent_update h0 List.nodup_range hmem, h.space, Nat.cast_add]
    ring

/-- The code lengths, once they are read. -/
theorem Lengths.listing (h : b.Lengths) (hdone : b.count = 1 ∨ b.space = 0) {b' : Builder}
    (hcode : b'.code = LengthCode.build b.small b.count) (hsame : SameLists b.clear b')
    (hindex : b'.index = 0)
    (hprevious : b'.previous = 8) : b'.Listing alphabet := by
  have hbuild : LengthCode.used b.small (List.range 18) = 1 ∨
      LengthCode.spent b.small (List.range 18) = 32 := by
    have h1 := h.count
    have h2 := h.space
    omega
  obtain ⟨c, hof, hc⟩ := LengthCode.lookup_build (fun s _ => h.le s) hbuild
  refine ⟨⟨c, fun v => ⟨?_, (hc v).2, ?_⟩⟩, ⟨fun _ => [], ?_, fun hne => ?_⟩, by omega, by omega⟩
  · rw [hcode, h.count]
    exact (hc v).1
  · obtain ⟨ℓ, -, -, hs⟩ := mem_symbols.mp (PrefixCode.lookup_mem hof v)
    exact (LengthCode.mem_lists.mp hs).1
  · rw [hindex]
    exact hsame.chained (Chained.clear b 0)
  · exact absurd (List.flatMap_eq_nil_iff.mpr fun _ _ => rfl) hne

/-- The lists are complete. -/
theorem Listing.described (h : b.Listing alphabet) (ha : alphabet ≤ maxAlphabet) :
    Described alphabet { b with stage := .start } := by
  obtain ⟨lists, hc, hlast⟩ := h.lists
  have hsame : SameLists b { b with stage := .start } := ⟨rfl, rfl, rfl, rfl, rfl⟩
  have hc' := (hsame.chained hc).mono h.index
  refine ⟨lists, hc'.listed ha hlast, fun s hs => ?_⟩
  obtain ⟨ℓ, -, -, hs⟩ := mem_symbols.mp hs
  exact hc'.lt ℓ s hs

/-- The next symbols have no code. -/
theorem Listing.skip (h : b.Listing alphabet) {stop : ℕ} (hle : b.index ≤ stop)
    (hstop : stop ≤ alphabet) {b' : Builder}
    (hcode : b'.code = b.code) (hsame : SameLists b b') (hlast : b'.last = b.last)
    (hprevious : b'.previous = b.previous)
    (hindex : b'.index = stop) : b'.Listing alphabet := by
  obtain ⟨lists, hc, hmem⟩ := h.lists
  refine ⟨hcode ▸ h.code, ⟨lists, ?_, hlast ▸ hmem⟩, hprevious ▸ h.previous, hindex ▸ hstop⟩
  rw [hindex]
  exact (hsame.chained hc).mono hle

/-- The next symbols have one length. -/
theorem Listing.append (h : b.Listing alphabet) {stop length : ℕ} {l : List ℕ} {b₁ b' : Builder}
    (h1 : 1 ≤ length)
    (h15 : length ≤ 15) (hc : ∀ lists, Chained b lists b.index →
      Chained b₁ (appendAt lists length l) stop)
    (hlast : b'.last ∈ l ∧ b'.last + 1 = stop) (hstop : stop ≤ alphabet) (hcode : b'.code = b.code)
    (hsame : SameLists b₁ b')
    (hprevious : 1 ≤ b'.previous ∧ b'.previous ≤ 15) (hindex : b'.index = stop) :
    b'.Listing alphabet := by
  obtain ⟨lists, hlists, -⟩ := h.lists
  have hc := hsame.chained (hc lists hlists)
  refine ⟨hcode ▸ h.code, ⟨_, hindex ▸ hc, fun _ => ⟨?_, fun s hs => ?_⟩⟩, hprevious,
    hindex ▸ hstop⟩
  · exact (mem_symbols_appendAt h1 h15).mpr (Or.inr hlast.1)
  · obtain ⟨ℓ, -, -, hs⟩ := mem_symbols.mp hs
    have := hc.lt ℓ s hs
    omega

theorem push_same (symbol length : ℕ) :
    (b.push symbol length).stage = b.stage ∧ (b.push symbol length).code = b.code ∧
      (b.push symbol length).index = b.index := by
  unfold push
  dsimp only
  split <;> exact ⟨rfl, rfl, rfl⟩

theorem pushRun_same (start stop length : ℕ) : (b.pushRun start stop length).stage = b.stage ∧
    (b.pushRun start stop length).code = b.code ∧ (b.pushRun start stop length).previous =
    b.previous := by
  unfold pushRun
  dsimp only
  split <;> exact ⟨rfl, rfl, rfl⟩

/-- The next symbol has this length. -/
theorem Listing.push (h : b.Listing alphabet) (ha : alphabet ≤ maxAlphabet)
    (hi : b.index ≠ alphabet) {symbol : ℕ}
    (h1 : 1 ≤ symbol) (h15 : symbol ≤ 15) {b' : Builder} (hcode : b'.code = b.code)
    (hsame : SameLists (b.push b.index symbol) b') (hlast : b'.last = b.index)
    (hprevious : b'.previous = symbol)
    (hindex : b'.index = b.index + 1) : b'.Listing alphabet := by
  have hlt : b.index < alphabet := lt_of_le_of_ne h.index hi
  refine h.append (l := [b.index]) h1 h15 (fun lists hc => ?_) ⟨?_, by rw [hlast]⟩ hlt hcode hsame
    (by omega) hindex
  · have hpush := hc.push h1 h15 (lt_of_lt_of_le hlt (le_trans ha (by decide))) fun ℓ hmem =>
      lt_irrefl _ (hc.lt ℓ _ hmem)
    rwa [max_eq_right (Nat.le_succ _)] at hpush
  · rw [hlast]
    exact List.mem_singleton.mpr rfl

/-- A run of symbols has one length. -/
theorem Listing.pushRun (h : b.Listing alphabet) (ha : alphabet ≤ maxAlphabet) {stop length : ℕ}
    (hlt : b.index < stop)
    (hstop : stop ≤ alphabet) (h1 : 1 ≤ length) (h15 : length ≤ 15) {b₀ b' : Builder}
    (h₀ : SameLists b b₀)
    (hcode : b'.code = b.code) (hsame : SameLists (b₀.pushRun b.index stop length) b')
    (hlast : b'.last = stop - 1)
    (hprevious : b'.previous = b.previous) (hindex : b'.index = stop) : b'.Listing alphabet := by
  refine h.append (l := List.range' b.index (stop - b.index)) h1 h15 (fun lists hc => ?_)
    ⟨?_, by omega⟩ hstop hcode hsame
    (hprevious ▸ h.previous) hindex
  · exact (h₀.chained hc).pushRun h1 h15 hlt (le_trans hstop (le_trans ha (by decide))) le_rfl
  · rw [hlast]
    exact List.mem_range'_1.mpr (by omega)

/-! ### The rounds -/

/-- What a round leads to. -/
def Stepped (alphabet : ℕ) (r : Builder × Bool) : Prop :=
  r.1.Reading alphabet ∧ (r.2 = true → r.1.stage = .start ∧ r.1.Described alphabet)

theorem simpleSymbols_gives (hstage : b.stage = .simpleSymbols) (h : b.Reading alphabet) :
    (b.step alphabet).Gives (Stepped alphabet) := by
  unfold Reading at h
  rw [hstage] at h
  obtain ⟨h1, h4, hle, hs⟩ := h
  unfold step
  split
  · trivial
  rw [hstage]
  dsimp only
  split
  · rename_i hlt
    refine (Reader.gives_read _).bind fun symbol _ => ?_
    show Reader.Gives _ (ite _ _ _)
    split
    · trivial
    rename_i hok
    simp only [not_or, not_le, List.any_eq_true, List.mem_range, decide_eq_true_eq, not_exists,
      not_and] at hok
    obtain ⟨hsym, hnew⟩ := hok
    refine ⟨?_, fun hf => nomatch hf⟩
    unfold Reading
    dsimp only
    refine ⟨h1, h4, hlt, fun i hi => ?_, fun i j hi hj he => ?_⟩
    · by_cases hib : i = b.index
      · simp only [hib, Function.update_self]
        exact hsym
      · simp only [Function.update_of_ne hib]
        exact hs.lt i (by omega)
    · by_cases hib : i = b.index <;> by_cases hjb : j = b.index
      · omega
      · simp only [hib, Function.update_self, Function.update_of_ne hjb] at he
        exact absurd he.symm (hnew j (by omega))
      · simp only [hjb, Function.update_self, Function.update_of_ne hib] at he
        exact absurd he (hnew i (by omega))
      · simp only [Function.update_of_ne hib, Function.update_of_ne hjb] at he
        exact hs.inj i j (by omega) (by omega) he
  · rename_i hlt
    have heq : b.index = b.count := by omega
    rw [heq] at hs
    exact ⟨⟨h1, h4, hs.lt, hs.inj⟩, fun hf => nomatch hf⟩

theorem codeLengths_gives (hstage : b.stage = .codeLengths) (h : b.Lengths) :
    (b.step alphabet).Gives (Stepped alphabet) := by
  unfold step
  split
  · trivial
  rw [hstage]
  dsimp only
  split
  · rename_i hmore
    have hnext : ∀ value, value ≤ lengthBits → Stepped alphabet
        (if value ≠ 0 then
          { b with
            small := Function.update b.small (order.getD b.index 0) value, index := b.index + 1
            count := b.count + 1, space := b.space - (32 >>> value : ℕ) }
        else { b with small := Function.update b.small (order.getD b.index 0) value, index :=
          b.index + 1 }, false) :=
      fun value hv => by
        refine ⟨?_, fun hf => nomatch hf⟩
        dsimp only
        split
        · rename_i hz
          exact reading_lengths hstage (h.read hmore.1 hv rfl rfl (by rw [if_pos hz])
            (by rw [if_pos hz]))
        · rename_i hz
          exact reading_lengths hstage (h.read hmore.1 hv rfl rfl (by rw [if_neg hz]; rfl)
            (by rw [if_neg hz]; simp))
    rw [hstage] at hnext
    intro first _
    show Reader.Gives _ (ite _ _ _)
    split
    · exact hnext 0 (Nat.zero_le _)
    show Reader.Gives _ (ite _ _ _)
    split
    · exact hnext 4 (by decide)
    show Reader.Gives _ (ite _ _ _)
    split
    · exact hnext 3 (by decide)
    intro next _
    show Reader.Gives _ (ite _ _ _)
    split
    · exact hnext 2 (by decide)
    intro last _
    exact hnext (if last = 7 then 1 else 5) (by split <;> decide)
  · split
    · trivial
    · rename_i hdone
      refine ⟨reading_listing rfl (h.listing ?_ rfl ⟨rfl, rfl, rfl, rfl, rfl⟩ rfl rfl),
        fun hf => nomatch hf⟩
      omega

theorem symbols_gives (ha : alphabet ≤ maxAlphabet) (hstage : b.stage = .symbols)
    (h : b.Listing alphabet) :
    (b.step alphabet).Gives (Stepped alphabet) := by
  unfold step
  split
  · trivial
  rw [hstage]
  dsimp only
  split
  · exact ⟨trivial, fun _ => ⟨rfl, h.described ha⟩⟩
  split
  · trivial
  rename_i hstop
  obtain ⟨c, hc⟩ := h.code
  have hcode : (Reader.symbol (some lengthBits) b.code.lookup : Reader Fault ℕ).Gives fun symbol =>
      symbol < 18 := by
    refine Reader.gives_symbol _ fun v => ?_
    rw [(hc v).1]
    exact (hc v).2.2
  refine hcode.bind fun symbol h18 => ?_
  show Reader.Gives _ (ite _ _ _)
  split
  · rename_i h16
    refine ⟨?_, fun hf => nomatch hf⟩
    dsimp only
    split
    · rename_i hz
      obtain ⟨p1, p2, p3⟩ := push_same (b := b) b.index symbol
      exact reading_listing (p1.trans hstage)
        (h.push ha (fun he => hstop (Or.inr he)) (Nat.one_le_iff_ne_zero.mpr hz)
        (by omega) p2 ⟨rfl, rfl, rfl, rfl, rfl⟩ rfl rfl (congrArg (· + 1) p3))
    · have hlt : b.index < alphabet := lt_of_le_of_ne h.index fun he => hstop (Or.inr he)
      exact reading_listing hstage (h.skip (Nat.le_succ _) hlt rfl ⟨rfl, rfl, rfl, rfl,
        rfl⟩ rfl rfl rfl)
  · exact ⟨⟨h.skip le_rfl h.index rfl ⟨rfl, rfl, rfl, rfl, rfl⟩ rfl rfl rfl, by omega⟩,
      fun hf => nomatch hf⟩

theorem repeat_gives (ha : alphabet ≤ maxAlphabet) {symbol : ℕ} (hstage : b.stage = .repeat symbol)
    (h : b.Listing alphabet) :
    (b.step alphabet).Gives (Stepped alphabet) := by
  unfold step
  split
  · trivial
  rw [hstage]
  refine (Reader.gives_read _).bind fun extra _ => ?_
  dsimp only
  generalize hlength : (if symbol = 16 then b.previous else 0) = length
  generalize hbefore : (if b.repeatLength ≠ length then 0 else b.repeated) = before
  generalize hrepeated : (if before = 0 then 0 else (before - 2) <<< (symbol - 14)) +
    extra + 3 = repeated
  have h15 : length ≤ 15 := by
    have := h.previous.2
    rw [← hlength]
    split <;> omega
  -- a repetition that is continued grows
  have hgrows : before < repeated := by
    rw [← hrepeated]
    split
    · omega
    · have : (before - 2) * 1 ≤ (before - 2) <<< (symbol - 14) := by
        rw [Nat.shiftLeft_eq]
        exact Nat.mul_le_mul_left _ (Nat.two_pow_pos _)
      omega
  show Reader.Gives _ (ite _ _ _)
  split
  · trivial
  rename_i hstop
  refine ⟨?_, fun hf => nomatch hf⟩
  dsimp only
  split
  · rename_i hz
    obtain ⟨p1, p2, p3⟩ :=
      pushRun_same (b := { b with repeatLength := length, repeated, stage := .symbols }) b.index
        (b.index + (repeated - before)) length
    have hsame : SameLists b { b with repeatLength := length, repeated, stage := .symbols } :=
      ⟨rfl, rfl, rfl, rfl, rfl⟩
    exact reading_listing p1 (h.pushRun ha (by omega) (by omega)
      (Nat.one_le_iff_ne_zero.mpr hz) h15 hsame p2
      ⟨rfl, rfl, rfl, rfl, rfl⟩ rfl p3 rfl)
  · exact reading_listing rfl (h.skip (Nat.le_add_right _ _) (by omega) rfl ⟨rfl, rfl, rfl, rfl,
      rfl⟩ rfl rfl rfl)

/-- **A round keeps what the builder holds, and the one that completes a description
leaves its lists.** -/
theorem step_gives (h : b.Reading alphabet) : (b.step alphabet).Gives (Stepped alphabet) := by
  by_cases halpha : alphabet = 0 ∨ maxAlphabet < alphabet
  · unfold step
    rw [if_pos halpha]
    trivial
  have ha : alphabet ≤ maxAlphabet := by omega
  cases hstage : b.stage with
  | start =>
    unfold step
    rw [if_neg halpha, hstage]
    refine (Reader.gives_read 2).bind fun skip hskip => ?_
    refine ⟨?_, fun hf => nomatch hf⟩
    dsimp only
    split
    · trivial
    · exact reading_lengths rfl (lengths_start (by simp only; omega) rfl rfl rfl)
  | simpleCount =>
    unfold step
    rw [if_neg halpha, hstage]
    refine (Reader.gives_read 2).bind fun count hcount => ?_
    refine ⟨⟨Nat.le_add_left 1 count, by simp only; omega, Nat.zero_le _, ?_⟩, fun hf => nomatch hf⟩
    exact ⟨fun i hi => absurd hi (Nat.not_lt_zero i), fun i _ hi => absurd hi (Nat.not_lt_zero i)⟩
  | simpleSymbols => exact simpleSymbols_gives hstage h
  | simpleShape =>
    unfold Reading at h
    rw [hstage] at h
    obtain ⟨h1, h4, hs⟩ := h
    unfold step
    rw [if_neg halpha, hstage]
    dsimp only
    show Reader.Gives _ (ite _ _ _)
    split
    · exact (Reader.gives_read 1).bind fun shape _ =>
        ⟨trivial, fun _ => ⟨rfl, hs.described ha h1 h4 shape⟩⟩
    · exact ⟨trivial, fun _ => ⟨rfl, hs.described ha h1 h4 0⟩⟩
  | codeLengths =>
    unfold Reading at h
    rw [hstage] at h
    exact codeLengths_gives hstage h
  | symbols =>
    unfold Reading at h
    rw [hstage] at h
    exact symbols_gives ha hstage h
  | «repeat» symbol =>
    unfold Reading at h
    rw [hstage] at h
    exact repeat_gives ha hstage h.1

end Builder
end Mbrotli
