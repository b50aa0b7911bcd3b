/-
# The static-dictionary searches report true references

The exhaustive search visits the bucket of the bytes behind each prefix it knows, and
every visit keeps the table true. The single-item test of the greedy qualities compares
one word and takes the omission its mismatch names.

Key definitions: `Laid`, `testItem`.
Key theorems: `findAll_kept`, `testItem_expands`, `searches_expand`.
-/
import Mbrotli.Shared.AllMatches
import Mbrotli.Compressor.Core.Greedy.BackwardReferences

namespace Mbrotli.StaticDictionary

open Compressor (commonPrefixLen commonPrefixLen_spec SearchResult)

variable {t : Tables} {data : List UInt8} {f : Found}

/-- The tables have the layout their accessors expect. The first entry is never asked
for, an empty bucket being zero. -/
def Laid (t : Tables) : Prop := ∀ i w, i ≠ 0 → t.item i = some w → Entry t w

theorem eachItem_kept {visit : DictWord → Found → Found} (ht : Laid t)
    (hvisit : ∀ w f, Entry t w → Kept t data f.table → Kept t data (visit w f).table) (fuel : ℕ)
    {offset : ℕ} (hoffset : offset ≠ 0)
    (h : Kept t data f.table) : Kept t data (eachItem t visit fuel offset f).table := by
  induction fuel generalizing offset f with
  | zero => exact h
  | succ fuel ih =>
    rw [eachItem]
    split
    · exact h
    · next w hitem =>
      have hnext := hvisit w f (ht _ _ hoffset hitem) h
      split
      · exact hnext
      · exact ih (Nat.succ_ne_zero _) hnext

theorem bucketHead_ne_zero {tail : List UInt8} {offset : ℕ} (h : t.bucketHead tail = some offset) :
    offset ≠ 0 := by
  rw [Tables.bucketHead] at h
  generalize (t.buckets (2 * Tables.hash15 tail)).toNat +
    (t.buckets (2 * Tables.hash15 tail + 1)).toNat * 2 ^ 8 = head at h
  split at h
  · next hne =>
    rw [← Option.some.inj h]
    exact hne
  · cases h

theorem eachOf_kept {visit : DictWord → Found → Found} (ht : Laid t) (tail : List UInt8)
    (hvisit : ∀ w f, Entry t w → Kept t data f.table → Kept t data (visit w f).table)
    (h : Kept t data f.table) :
    Kept t data (eachOf t visit tail f).table := by
  rw [eachOf]
  cases hhead : t.bucketHead tail with
  | none => exact h
  | some offset =>
    dsimp only
    exact eachItem_kept ht hvisit (t.wordItems.length + 1) (bucketHead_ne_zero hhead) h

/-- Five bytes tested one by one. -/
theorem prefixed_of_five {a b c d e : UInt8} (ha : data.getD 0 0 = a) (hb : data.getD 1 0 = b)
    (hc : data.getD 2 0 = c)
    (hd : data.getD 3 0 = d) (he : data.getD 4 0 = e)
    (hne : a ≠ 0 ∧ b ≠ 0 ∧ c ≠ 0 ∧ d ≠ 0 ∧ e ≠ 0) : [a, b, c, d, e] <+: data := by
  refine prefixed_of_bytes fun i hi => ?_
  have hi : i < 5 := hi
  interval_cases i
  · exact getElem?_of_getD ha hne.1
  · exact getElem?_of_getD hb hne.2.1
  · exact getElem?_of_getD hc hne.2.2.1
  · exact getElem?_of_getD hd hne.2.2.2.1
  · exact getElem?_of_getD he hne.2.2.2.2

/-- Every entry the search leaves is a true reference. -/
theorem findAll_kept (ht : Laid t) {table : List ℕ} (h : Kept t data table)
    (minLength maxLength : ℕ) :
    Kept t data (findAll t data minLength maxLength table).table := by
  have hplain : Kept t data (eachOf t (plainAndUppercase t data minLength maxLength) data ⟨false,
      table⟩).table :=
    eachOf_kept ht data (fun w f hw hf => plainAndUppercase_kept hf hw minLength maxLength) h
  rw [findAll]
  generalize eachOf t (plainAndUppercase t data minLength maxLength) data ⟨false, table⟩ =
    f at hplain
  have hspaced : Kept t data (if maxLength < 5 ∨ (data.headD 0 ≠ 32 ∧ data.headD 0 ≠ 46) then f
      else eachOf t (spaceOrDotPrefix t data maxLength (data.headD 0 = 32)) (data.drop 1)
      f).table := by
    split
    · exact hplain
    · next hfirst =>
      rw [not_or, not_and_or, not_not, not_not] at hfirst
      refine eachOf_kept ht _ (fun w f hw hf => spaceOrDotPrefix_kept hf hw maxLength ?_) hplain
      rcases hfirst.2 with hspace | hdot
      · rw [hspace, decide_eq_true rfl, if_pos rfl]
      · rw [hdot, decide_eq_false (by decide), if_neg Bool.false_ne_true]
  generalize (if maxLength < 5 ∨ (data.headD 0 ≠ 32 ∧ data.headD 0 ≠ 46) then f
      else eachOf t (spaceOrDotPrefix t data maxLength (data.headD 0 = 32)) (data.drop 1) f) =
      f at hspaced
  have htwo : Kept t data (if maxLength < 6 ∨
    ¬((data.getD 1 0 = 32 ∧ (data.getD 0 0 = 101 ∨ data.getD 0 0 = 115 ∨ data.getD 0 0 = 44)) ∨
      (data.getD 0 0 = 0xC2 ∧ data.getD 1 0 = 0xA0)) then f
      else eachOf t (twoBytePrefix t data maxLength) (data.drop 2) f).table := by
    split
    · exact hspaced
    · next hfirst =>
      rw [not_or, not_not] at hfirst
      exact eachOf_kept ht _ (fun w f hw hf => twoBytePrefix_kept hf hw maxLength hfirst.2) hspaced
  generalize (if maxLength < 6 ∨
    ¬((data.getD 1 0 = 32 ∧ (data.getD 0 0 = 101 ∨ data.getD 0 0 = 115 ∨ data.getD 0 0 = 44)) ∨
      (data.getD 0 0 = 0xC2 ∧ data.getD 1 0 = 0xA0)) then f
      else eachOf t (twoBytePrefix t data maxLength) (data.drop 2) f) = f at htwo
  split
  · exact htwo
  · next hfirst =>
    rw [not_or, not_not] at hfirst
    refine eachOf_kept ht _ (fun w f hw hf => longPrefix_kept hf hw maxLength ?_) htwo
    rcases hfirst.2 with hthe | hcom
    · rw [decide_eq_true hthe, if_pos rfl]
      exact prefixed_of_five hthe.1 hthe.2.1 hthe.2.2.1 hthe.2.2.2.1 hthe.2.2.2.2 (by decide)
    · rw [decide_eq_false fun hthe => absurd (hthe.1.symm.trans hcom.1) (by decide),
        if_neg Bool.false_ne_true]
      exact prefixed_of_five hcom.1 hcom.2.1 hcom.2.2.1 hcom.2.2.2.1 hcom.2.2.2.2 (by decide)

/-! ### The single-item test -/

/-- Tests one word: the result it takes in place of the one before, if the word is better. -/
def testItem (t : Tables) (score : ℕ → ℕ → ℕ) (len wordIdx : ℕ) (data : List UInt8)
    (maxLength maxBackward maxDistance : ℕ)
    (out : SearchResult) : Option SearchResult :=
  if maxLength < len then none
  else
    match builtinSizeBitsByLength[len]?, t.word len wordIdx with
    | some sizeBits, some word =>
      let matchlen := commonPrefixLen data word len
      if matchlen + cutoffTransformsCount ≤ len ∨ matchlen = 0 then none
      else
        let transformId := cutoffTransform (len - matchlen)
        let backward := maxBackward + 1 + wordIdx + (transformId <<< sizeBits)
        if maxDistance < backward then none
        else if score matchlen backward < out.score then none
        else some ⟨matchlen, backward, score matchlen backward, (len : ℤ) - matchlen⟩
    | _, _ => none

/-- A word that is taken is a true reference. -/
theorem testItem_expands {score : ℕ → ℕ → ℕ} {len wordIdx maxLength maxBackward maxDistance : ℕ}
    {out out' : SearchResult} (hge : 4 ≤ len)
    (hle : len ≤ 24) (hidx : wordIdx < wordsOfLength len)
    (h : testItem t score len wordIdx data maxLength maxBackward maxDistance out = some out') :
    out'.len ≤ data.length ∧ maxBackward < out'.distance ∧
      Expands t data (out'.distance - maxBackward - 1)
      ((out'.len : ℤ) + out'.lenCodeDelta).toNat out'.len := by
  have hw : Entry t ⟨len, 0, wordIdx, true⟩ :=
    ⟨hge, hle, hidx, .inl rfl, fun h => absurd h (show (0 : ℕ) ≠ 11 by decide)⟩
  obtain ⟨bits, hbits, -⟩ := length_shape hge hle
  have hword := hw.word_eq
  dsimp only at hword
  rw [testItem] at h
  split at h
  · cases h
  · rw [hbits, hword] at h
    dsimp only at h
    set word := DictWord.dict t ⟨len, 0, wordIdx, true⟩ with hdict
    obtain ⟨hle', hfits, hsame⟩ := commonPrefixLen_spec data word len
    set matchlen := commonPrefixLen data word len with hmatchlen
    have hlen : word.length = len := DictWord.length_dict t _
    split at h
    · cases h
    · next hcut =>
      rw [cutoffTransformsCount, not_or, Nat.not_le] at hcut
      split at h
      · cases h
      · split at h
        · cases h
        · obtain rfl := Option.some.inj h
          obtain ⟨hname, hlt⟩ := cutoff_names (show len - matchlen ≤ 9 by omega)
          have htake : word.take matchlen = data.take matchlen := by
            refine List.ext_getElem? fun i => ?_
            rcases Nat.lt_or_ge i matchlen with hi | hi
            · rw [List.getElem?_take_of_lt hi, List.getElem?_take_of_lt hi]
              exact (hsame i hi).symm
            · rw [List.getElem?_take_eq_none hi, List.getElem?_take_eq_none hi]
          have hexpands := @Entry.expands t _ data hw _ matchlen _ hname hlt (by
            rw [apply_omit _ (by omega), hlen, Nat.sub_sub_self hle']
            exact htake)
          have hwords : wordsOfLength len = 2 ^ bits := by
            rw [wordsOfLength, hbits]
          dsimp only at hexpands ⊢
          rw [hwords] at hexpands
          rw [Nat.shiftLeft_eq]
          generalize cutoffTransform (len - matchlen) * 2 ^ bits = added at hexpands ⊢
          refine ⟨hfits, by omega, ?_⟩
          rw [show ((matchlen : ℤ) + ((len : ℤ) - matchlen)).toNat = len by omega,
            show maxBackward + 1 + wordIdx + added - maxBackward - 1 = wordIdx + added by omega]
          exact hexpands

/-- Both searches of the static dictionary report true references only: every entry the
exhaustive one leaves for bytes there are, and every word the single-item test takes. -/
theorem searches_expand (ht : Laid t) (data : List UInt8) :
    (∀ minLength maxLength l e,
      (findAll t data minLength maxLength
        (List.replicate (maxStaticDictionaryMatchLen + 1) invalidMatch)).table[l]? = some e →
      e < invalidMatch → l ≤ data.length → Expands t data (e >>> 5) (e % 32) l) ∧
    ∀ (score : ℕ → ℕ → ℕ) (len wordIdx maxLength maxBackward maxDistance : ℕ)
    (out out' : SearchResult), 4 ≤ len → len ≤ 24 →
      wordIdx < wordsOfLength len → testItem t score len wordIdx data maxLength maxBackward
      maxDistance out = some out' →
      out'.len ≤ data.length ∧ maxBackward < out'.distance ∧
        Expands t data (out'.distance - maxBackward - 1)
        ((out'.len : ℤ) + out'.lenCodeDelta).toNat out'.len := by
  refine ⟨fun minLength maxLength l e he hvalid hl => ?_,
    fun score len wordIdx maxLength maxBackward maxDistance out out' hge hle hidx h =>
    testItem_expands hge hle hidx h⟩
  refine findAll_kept ht (fun l e he hvalid _ => ?_) minLength maxLength l e he hvalid hl
  obtain rfl := List.eq_of_mem_replicate (List.mem_of_getElem? he)
  exact absurd hvalid (Nat.lt_irrefl _)

/-- Tables with one word, `time`, in every bucket. -/
def timeTables : Tables :=
  ⟨fun i => [116, 105, 109, 101].getD i 0, fun i => if i % 2 = 0 then 1
    else 0, [0, 0, 0, 0, 0x84, 0, 0, 0]⟩

/-- `time the hour`. -/
def timeData : List UInt8 := [116, 105, 109, 101, 32, 116, 104, 101, 32, 104, 111, 117, 114]

theorem timeTables_laid : Laid timeTables := by
  intro i w hi hw
  match i, hi with
  | 1, _ =>
    obtain rfl := Option.some.inj (show some (⟨4, 0, 0, true⟩ : DictWord) = some w from hw)
    exact ⟨by decide, by decide, by decide, .inl rfl,
      fun h => absurd h (show (0 : ℕ) ≠ 11 by decide)⟩
  | i + 2, _ =>
    rw [Tables.item, List.drop_eq_nil_of_le
      (by simp only [timeTables, List.length_cons, List.length_nil]; omega)] at hw
    cases hw

theorem searches_expand_time : Expands timeTables timeData (5 * 1024) 4 9 ∧
    Expands timeTables timeData 0 4 4 := by
  obtain ⟨hall, hone⟩ := searches_expand timeTables_laid timeData
  have htest : testItem timeTables (fun _ _ => 2021) 4 0 timeData 13 100 1000000 {} =
    some ⟨4, 101, 2021, 0⟩ := by decide +kernel
  exact ⟨hall 4 13 9 (5 * 1024 * 32 + 4) (by decide +kernel) (by decide) (by decide),
    (hone _ 4 0 13 100 1000000 _ _ (by decide) (by decide) (by decide) htest).2.2⟩

/-- Tables with one word, `time` in upper case, in every bucket. -/
def timeUppercased : Tables := { timeTables with wordItems := [0, 0, 0, 0, 0x84, 11, 0, 0] }

theorem timeUppercased_laid : Laid timeUppercased := by
  intro i w hi hw
  match i, hi with
  | 1, _ =>
    obtain rfl := Option.some.inj (show some (⟨4, 11, 0, true⟩ : DictWord) = some w from hw)
    have hdict : (⟨4, 11, 0, true⟩ : DictWord).dict timeUppercased = [116, 105, 109, 101] := by
      decide +kernel
    refine ⟨by decide, by decide, by decide, .inr (.inr rfl), fun _ => ?_⟩
    rw [hdict]
    intro byte hbyte
    simp only [List.mem_cons, List.not_mem_nil, or_false] at hbyte
    rcases hbyte with rfl | rfl | rfl | rfl <;> decide
  | i + 2, _ =>
    rw [Tables.item, List.drop_eq_nil_of_le
      (by simp only [timeUppercased, List.length_cons, List.length_nil]; omega)] at hw
    cases hw

/-- Behind `TIM` the comparison with a word in upper case stops where the bytes do, and an
entry of length four is left for three bytes. -/
theorem findAll_past_data : Laid timeUppercased ∧
    (findAll timeUppercased [84, 73, 77] 4 4
      (List.replicate (maxStaticDictionaryMatchLen + 1) invalidMatch)).table[4]? =
      some (44 * 1024 * 32 + 4) ∧ ¬ Expands timeUppercased [84, 73, 77] (44 * 1024) 4 4 := by
  refine ⟨timeUppercased_laid, by decide +kernel, fun h => ?_⟩
  have hword := h.decodes ⟨⟨timeUppercased.builtinWords, 0⟩, {}, none⟩ rfl
  exact absurd hword (by decide +kernel)

end Mbrotli.StaticDictionary
