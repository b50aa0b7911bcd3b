/-
# The symbols of a split meta-block, through writer and reader

Past its header a meta-block is symbols of three streams of blocks, with extra fields between
them. The reader that has crossed the header has the writer's blocks, maps and codes
(`AtCommands`); so it takes every symbol the encoders store for what it is, by the context maps
it has read itself (`meta_block_symbols_round_trip`). Where the writer has no context map, the
reader has the trivial one, which chooses the same tree (`selectBy_mapOf`).

Key definitions: `Codable`, `BlockEncoder.Stores`.
Key theorems: `selectBy_mapOf`, `Meets.storeAll`, `meta_block_symbols_round_trip`.
-/
import Mbrotli.Shared.MetaBlockHeader

namespace Mbrotli.Compressor.Bitstream

open BitString Resumable

variable {contextMap readerMap : List ℕ} {contextBits histogramLength : ℕ} {split : BlockSplit}
    {histograms : List (List ℕ)} {jobs : List (ℕ × ℕ)}

/-! ### The reader's maps -/

theorem getElem?_trivialMap {contextBits t context : ℕ} (numTypes : ℕ) (ht : t < numTypes)
    (hcontext : context < 2 ^ contextBits) :
    (trivialMap numTypes contextBits)[t <<< contextBits + context]? = some t := by
  induction numTypes with
  | zero => exact absurd ht (Nat.not_lt_zero t)
  | succ n ih =>
    have hsucc : trivialMap (n + 1) contextBits =
        trivialMap n contextBits ++ List.replicate (2 ^ contextBits) n := by
      unfold trivialMap
      rw [List.range_succ, List.flatMap_append, List.flatMap_singleton]
    have hlen := length_trivialMap n contextBits
    rw [hsucc]
    rcases Nat.lt_or_eq_of_le (Nat.le_of_lt_succ ht) with hlt | rfl
    · have hbelow : t * 2 ^ contextBits + 2 ^ contextBits ≤ n * 2 ^ contextBits := by
        rw [← Nat.succ_mul]
        exact Nat.mul_le_mul_right _ hlt
      rw [List.getElem?_append_left (by rw [hlen, Nat.shiftLeft_eq, Nat.shiftLeft_eq]; omega)]
      exact ih hlt
    · rw [List.getElem?_append_right (by omega), hlen, Nat.add_sub_cancel_left,
        List.getElem?_replicate, if_pos hcontext]

/-- The map the reader is left with chooses the writer's tree. -/
theorem selectBy_mapOf {numHistograms context t : ℕ} (ht : contextMap = [] → t < numHistograms)
    (hcontext : context < 2 ^ contextBits) :
    selectBy (mapOf contextMap numHistograms contextBits) contextBits context t =
    selectBy contextMap contextBits context t := by
  unfold mapOf
  by_cases hempty : contextMap = []
  · have hentry := getElem?_trivialMap numHistograms (ht hempty) hcontext
    have hne : trivialMap numHistograms contextBits ≠ [] := by
      intro h
      rw [h, List.getElem?_nil] at hentry
      cases hentry
    rw [if_pos hempty, hempty]
    unfold selectBy BlockEncoder.histogramOf
    rw [if_neg hne, hentry, if_pos rfl]
  · rw [if_neg hempty]

/-! ### The symbols of a stream -/

/-- Symbols of a stream, each with its context: no more than the split has, and each with a code in
its block. -/
def Codable (contextMap : List ℕ) (contextBits histogramLength : ℕ) (split : BlockSplit)
    (histograms : List (List ℕ)) (jobs : List (ℕ × ℕ)) : Prop :=
  List.Forall₂ (fun job t => job.2 < 2 ^ contextBits ∧
    HasCode contextMap contextBits histograms.length
    (fun h => usedSymbols (histograms.getD h []) histogramLength) job t)
    jobs (split.symbolTypes.take jobs.length)

/-- The encoder stores the symbols as these bits. -/
def BlockEncoder.Stores (e : BlockEncoder) (contextMap : List ℕ) (contextBits : ℕ)
    (jobs : List (ℕ × ℕ)) (symbols : List (List Bool)) : Prop :=
  ∃ e' ops, e.storeAll contextMap contextBits jobs = some (e', ops) ∧
    List.Forall₂ FastCommands.Writes ops symbols

theorem BlockEncoder.Stores.unique {e : BlockEncoder} {symbols symbols' : List (List Bool)}
    (h : e.Stores contextMap contextBits jobs symbols)
    (h' : e.Stores contextMap contextBits jobs symbols') : symbols = symbols' := by
  obtain ⟨e₁, ops, hstore, hwrites⟩ := h
  obtain ⟨e₂, ops', hstore', hwrites'⟩ := h'
  obtain rfl : ops = ops' := (Prod.mk.inj (Option.some.inj (hstore.symm.trans hstore'))).2
  exact List.right_unique_forall₂' (R := FastCommands.Writes) (fun _ _ _ => writes_unique)
    hwrites hwrites'

/-- With the map the reader is left with. -/
theorem Codable.chosen (h : Codable contextMap contextBits histogramLength split histograms jobs) :
    List.Forall₂
    (Chosen contextMap (mapOf contextMap histograms.length contextBits) contextBits
      histograms.length
      fun h => usedSymbols (histograms.getD h []) histogramLength) jobs
      (split.symbolTypes.take jobs.length) := by
  refine h.imp fun job t hjob => ⟨hjob.2, selectBy_mapOf (fun hempty => ?_) hjob.1⟩
  obtain ⟨-, histo, hhisto, hlt, -⟩ := hjob
  unfold BlockEncoder.histogramOf at hhisto
  rw [if_pos hempty] at hhisto
  rw [Option.some.inj hhisto]
  exact hlt

/-- With the map of the writer itself. -/
theorem Codable.same (h : Codable contextMap contextBits histogramLength split histograms jobs) :
    List.Forall₂ (Chosen contextMap contextMap contextBits histograms.length
      fun h => usedSymbols (histograms.getD h []) histogramLength) jobs
      (split.symbolTypes.take jobs.length) :=
  h.imp fun _ _ hjob => ⟨hjob.2, rfl⟩

/-- An opened block is at the start of its encoder. -/
theorem Opens.follows {code : BlockSplitCode} {b : Mbrotli.Block} {entropyIx : ℕ → ℕ}
    (h : Opens split code b) (hvalid : split.Valid)
    (hentropy : entropyIx 0 = 0) (depths bits : List ℕ) :
    ∃ usedTypes usedLengths, Follows split.numTypes usedTypes usedLengths entropyIx
      { BlockEncoder.new histogramLength split depths bits with splitCode := code } b := by
  by_cases hone : split.numTypes = 1
  · exact ⟨[], [], follows_new hvalid (fun hne => absurd hone hne) h.ready h.count h.current
      h.previous h.remaining
      (fun hne => absurd hone hne) hentropy⟩
  · obtain ⟨usedTypes, usedLengths, htypes, hlengths, hcovers⟩ := h.switches hone
    exact ⟨usedTypes, usedLengths,
      follows_new hvalid (fun _ => hcovers) h.ready h.count h.current h.previous h.remaining
      (fun _ => ⟨htypes, hlengths⟩) hentropy⟩

/-- An encoder that a reader meets stores any symbols with codes, and the reader takes them. -/
theorem Meets.storeAll {e : BlockEncoder} {b : Mbrotli.Block} {trees : Group}
    (h : Meets e split histograms b trees)
    (hstarts : e.Starts histogramLength split) (hvalid : split.Valid)
    (hjobs : List.Forall₂ (Chosen contextMap readerMap contextBits histograms.length
      fun h => usedSymbols (histograms.getD h []) histogramLength) jobs
      (split.symbolTypes.take jobs.length)) :
    ∃ symbols, e.Stores contextMap contextBits jobs symbols ∧
    TakesAll trees readerMap contextBits b jobs symbols := by
  obtain ⟨code, depths, bits, rfl⟩ := hstarts
  obtain ⟨hopens, hcoded⟩ := h
  obtain ⟨usedTypes, usedLengths, hfollows⟩ :=
    hopens.follows hvalid (entropyOf_zero contextMap contextBits histogramLength) depths bits
  have hahead :=
    (hvalid.typesAhead_new histogramLength depths bits code).trans
      (List.take_append_drop jobs.length _).symm
  obtain ⟨e', ops, symbols, hstore, hwrites, -, htakes⟩ :=
    hfollows.storeAll jobs rfl hcoded hahead hjobs
  exact ⟨symbols, ⟨e', ops, hstore, hwrites⟩, htakes⟩

/-! ### The whole meta-block -/

/-- Some reader comes to the commands: one without a memory limit. -/
theorem CrossedToCommands.exists_at {length : ℕ} {P : Stream → Prop} {stored : List Bool}
    (h : CrossedToCommands length P stored)
    (h24 : length ≤ 2 ^ 24) : ∃ s, P s := by
  have hspells : BitString.Spells (packBytes stored.length stored) 0 stored := fun i hi => by
    rw [Nat.zero_add, bitAt_packBytes stored (by omega)]
  have hposition : 0 + length ≤ u64Max := by
    have : u64Max = 2 ^ 64 - 1 := rfl
    omega
  rcases h ⟨⟨fun _ => 0, 1⟩, {}, none⟩ _ stored.length 0 { stage := .metaBlock } rfl rfl
    (fun t ht => by cases ht) hposition hspells (by omega) with
    ⟨l, s', q, hl, -⟩ | ⟨s', -, hs', -⟩
  · cases hl
  · exact ⟨s', hs'⟩

/-- A reader at the commands takes the symbols of the three streams, by the maps it has read. -/
def TakesSymbols (literals commands distances : List (ℕ × ℕ))
    (literalSymbols commandSymbols distanceSymbols : List (List Bool)) (s : Stream) : Prop :=
  s.stage = .command ∧ ∃ t, s.tables = some t ∧
    TakesAll (t.trees 0) (t.maps 0).values.toList literalContextBits (t.blocks 0) literals
    literalSymbols ∧
    TakesAll (t.trees 1) [] 0 (t.blocks 1) commands commandSymbols ∧
    TakesAll (t.trees 2) (t.maps 1).values.toList distanceContextBits (t.blocks 2) distances
    distanceSymbols

/-- **The symbols of a split meta-block survive the writer and the reader.** The encoders that the
header leaves store any symbols of their streams that have codes, and a reader of the header
takes each of them for what it is. -/
theorem meta_block_symbols_round_trip (w : MetaBlockWriter)
    (harena : ∀ arena, w.arena = some arena → arena.Sized) {length : ℕ} (h1 : 1 ≤ length)
    (h24 : length ≤ 2 ^ 24) (isLast : Bool) (contextMode : ContextMode) {postfixBits numDirect : ℕ}
    (hlegal : (DistanceParams.forWindow false postfixBits numDirect).Legal) {mb : MetaBlockSplit}
    (hmb : mb.Valid (DistanceParams.forWindow false postfixBits numDirect).alphabetSizeLimit)
    {literals commands distances : List (ℕ × ℕ)}
    (hliterals : Codable mb.literalContextMap literalContextBits numLiteralSymbols mb.literalSplit
      mb.literalHistograms literals)
    (hcommands : Codable [] 0 numCommandSymbols mb.commandSplit mb.commandHistograms commands)
    (hdistances : Codable mb.distanceContextMap distanceContextBits
      (DistanceParams.forWindow false postfixBits numDirect).alphabetSizeLimit
      mb.distanceSplit mb.distanceHistograms distances) :
    ∃ w' literal command distance calls stored literalSymbols commandSymbols distanceSymbols,
      w.storeMetaBlockHeader length isLast contextMode
      (DistanceParams.forWindow false postfixBits numDirect) mb =
        some (w', literal, command, distance, calls) ∧
      FastCommands.Writes calls stored ∧
      literal.Stores mb.literalContextMap literalContextBits literals literalSymbols ∧
      command.Stores [] 0 commands commandSymbols ∧
      distance.Stores mb.distanceContextMap distanceContextBits distances distanceSymbols ∧
      ReadsToCommands length
      (TakesSymbols literals commands distances literalSymbols commandSymbols distanceSymbols)
      stored := by
  obtain ⟨w', literal, command, distance, calls, stored, hstore, hwrites,
      ⟨hliteral, hcommand, hdistance⟩, hcrosses⟩ :=
    storeMetaBlockHeader_crossed w harena h1 h24 isLast contextMode hlegal hmb
  have htaken : ∀ s, AtCommands length isLast contextMode
    (DistanceParams.forWindow false postfixBits numDirect) mb literal command distance s →
      ∃ literalSymbols commandSymbols distanceSymbols,
      literal.Stores mb.literalContextMap literalContextBits literals literalSymbols ∧
        command.Stores [] 0 commands commandSymbols ∧
        distance.Stores mb.distanceContextMap distanceContextBits distances distanceSymbols ∧
        TakesSymbols literals commands distances literalSymbols commandSymbols
        distanceSymbols s := by
    intro s hs
    have hstage := hs.stage
    obtain ⟨t, hheading, -, -, hvalues₀, hvalues₁, hmeets₀, hmeets₁, hmeets₂⟩ := hs
    obtain ⟨literalSymbols, hstores₀, htakes₀⟩ :=
      hmeets₀.storeAll hliteral hmb.literalSplit hliterals.chosen
    obtain ⟨commandSymbols, hstores₁, htakes₁⟩ :=
      hmeets₁.storeAll hcommand hmb.commandSplit hcommands.same
    obtain ⟨distanceSymbols, hstores₂, htakes₂⟩ :=
      hmeets₂.storeAll hdistance hmb.distanceSplit hdistances.chosen
    refine ⟨literalSymbols, commandSymbols, distanceSymbols, hstores₀, hstores₁, hstores₂, hstage,
      t, hheading.tables, ?_, htakes₁, ?_⟩
    · rw [hvalues₀]
      exact htakes₀
    · rw [hvalues₁]
      exact htakes₂
  -- the writer's symbols do not depend on the reader: one without a limit gives them
  obtain ⟨s₀, hs₀⟩ := hcrosses.exists_at h24
  obtain ⟨literalSymbols, commandSymbols, distanceSymbols, hstores₀, hstores₁, hstores₂, -⟩ :=
    htaken s₀ hs₀
  refine ⟨w', literal, command, distance, calls, stored, literalSymbols, commandSymbols,
    distanceSymbols, hstore, hwrites, hstores₀, hstores₁, hstores₂,
    (hcrosses.mono fun s hs => ?_).reads fun s hs => hs.1⟩
  obtain ⟨literalSymbols', commandSymbols', distanceSymbols', hstores₀', hstores₁', hstores₂',
    htakes⟩ := htaken s hs
  rw [hstores₀.unique hstores₀', hstores₁.unique hstores₁', hstores₂.unique hstores₂']
  exact htakes

theorem mem_padded {l : List ℕ} {n s k : ℕ} (hs : s < k) (hl : s < l.length) (h0 : l.getD s 0 ≠ 0) :
    s ∈ usedSymbols (l ++ List.replicate n 0) k := by
  refine mem_usedSymbols.2 ⟨hs, ?_⟩
  rw [List.getD_append _ _ _ _ hl]
  exact h0

/-- Literals of both types, two commands and a distance. -/
theorem meta_block_symbols_round_trip_turns :
    ∃ w' literal command distance calls stored literalSymbols commandSymbols distanceSymbols,
      ({} : MetaBlockWriter).storeMetaBlockHeader 12 true .utf8
      (DistanceParams.forWindow false 0 0) turnsSplit =
        some (w', literal, command, distance, calls) ∧
      FastCommands.Writes calls stored ∧
      literal.Stores [] literalContextBits
      [(0, 0), (1, 3), (0, 1), (0, 0), (1, 63)] literalSymbols ∧
      command.Stores [] 0 [(0, 0), (0, 0)] commandSymbols ∧
      distance.Stores [] distanceContextBits [(0, 3)] distanceSymbols ∧
      ReadsToCommands 12
      (TakesSymbols [(0, 0), (1, 3), (0, 1), (0, 0), (1, 63)] [(0, 0), (0, 0)] [(0, 3)]
        literalSymbols commandSymbols distanceSymbols)
        stored := by
  have hused : ∀ s < 2, [3, 1].getD s 0 ≠ 0 := by decide
  have hfirst : ∀ s < 2, ∀ c < 64, c < 2 ^ 6 ∧ HasCode [] literalContextBits 2
      (fun h => usedSymbols (turnsSplit.literalHistograms.getD h []) numLiteralSymbols) (s, c) 0 :=
      fun s hs c hc =>
    ⟨hc, 0, rfl, by decide, mem_padded (show s < 256 by omega) hs (hused s hs)⟩
  have hsecond : 63 < 2 ^ 6 ∧ HasCode [] literalContextBits 2
      (fun h => usedSymbols (turnsSplit.literalHistograms.getD h []) numLiteralSymbols) (1, 63) 1 :=
    ⟨by decide, 1, rfl, by decide, mem_padded (by decide) (by decide) (by decide)⟩
  have hcommand : 0 < 2 ^ 0 ∧
      HasCode [] 0 1 (fun h => usedSymbols (turnsSplit.commandHistograms.getD h [])
        numCommandSymbols) (0, 0) 0 :=
    ⟨by decide, 0, rfl, by decide, mem_padded (by decide) (by decide) (by decide)⟩
  have hdistance : 3 < 2 ^ 2 ∧ HasCode [] distanceContextBits 1
      (fun h => usedSymbols (turnsSplit.distanceHistograms.getD h []) 64) (0, 3) 0 :=
    ⟨by decide, 0, rfl, by decide, mem_padded (by decide) (by decide) (by decide)⟩
  exact meta_block_symbols_round_trip {} (fun _ h => by
    cases h) (by decide) (by decide) true .utf8 ⟨by decide, by decide, by decide⟩ turnsSplit_valid
    (.cons (hfirst 0 (by decide) 0 (by decide))
      (.cons (hfirst 1 (by decide) 3 (by decide)) (.cons (hfirst 0 (by decide) 1 (by decide))
      (.cons (hfirst 0 (by decide) 0 (by decide)) (.cons hsecond .nil)))))
    (.cons hcommand (.cons hcommand .nil)) (.cons hdistance .nil)

end Mbrotli.Compressor.Bitstream
