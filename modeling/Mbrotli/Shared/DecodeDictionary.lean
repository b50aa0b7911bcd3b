/-
# Decode-only dictionaries

`Prefixes` holds what a dictionary attaches: raw prefix segments, and at most one
serialized description that replaces the built-in words or transforms.
`DictionaryRef` is the view an operation decodes with.
-/
import Mbrotli.Shared.DecodeSerialized

namespace Mbrotli

structure DecodeDictionaryLimits where
  sourceBytes : Option ℕ := none
  ownedBytes : Option ℕ := none

inductive DictionaryAttachment where
  | raw (source : List UInt8)
  | serialized (source : List UInt8)

def DictionaryAttachment.source : DictionaryAttachment → List UInt8
  | .raw source | .serialized source => source

structure Prefixes where
  description : Option Description := none
  segments : List (List UInt8) := []
  retained : ℕ := 0
  deriving DecidableEq, Repr

namespace Prefixes

def total (p : Prefixes) : ℕ := (p.segments.map List.length).sum

def attach (p : Prefixes) (source : List UInt8) (limits : DecodeDictionaryLimits) :
    Except DecodeDictionaryError Prefixes :=
  if p.segments.length = 15 then .error .tooManyAttachments
  else match limits.ownedBytes.filter (· < p.retained + source.length) with
    | some limit => .error (.memoryLimitExceeded limit)
    | none => .ok { p with segments := p.segments ++ [source], retained := p.retained +
        source.length }

def attachSerialized (p : Prefixes) (source : List UInt8) (limits : DecodeDictionaryLimits) :
    Except DecodeDictionaryError Prefixes := do
  let (description, start, stop) ← Description.parse source p.retained limits.ownedBytes
  if description.custom && p.description.isSome then throw .conflictingStaticDictionaries
  let p := { p with retained := p.retained + description.retained }
  let p ← if start < stop then p.attach ((source.take stop).drop start) limits else pure p
  -- Until here both the old and the new description were live.
  let previous := match p.description with
    | none => 0
    | some previous => previous.retained
  return { p with retained := p.retained - previous,
                  description := if description.custom then some description else none }

def buildFrom (limits : DecodeDictionaryLimits) :
    List DictionaryAttachment → ℕ → Prefixes → Except DecodeDictionaryError Prefixes
  | [], _, p => .ok p
  | attachment :: rest, sourceBytes, p => do
    let sourceBytes := sourceBytes + attachment.source.length
    match limits.sourceBytes.filter (· < sourceBytes) with
    | some limit => throw (.sourceLimitExceeded limit)
    | none => pure ()
    let p ← match attachment with
      | .raw source => p.attach source limits
      | .serialized source => p.attachSerialized source limits
    buildFrom limits rest sourceBytes p

def build (attachments : List DictionaryAttachment) (limits : DecodeDictionaryLimits) :
    Except DecodeDictionaryError Prefixes :=
  buildFrom limits attachments 0 {}

variable {p q : Prefixes} {source : List UInt8} {limits : DecodeDictionaryLimits}

theorem attach_ok (h : p.attach source limits = .ok q) : p.segments.length ≠ 15 ∧
    q = { p with segments := p.segments ++ [source], retained := p.retained + source.length } ∧
    ∀ limit, limits.ownedBytes = some limit → q.retained ≤ limit := by
  rw [attach] at h
  split at h
  · cases h
  rename_i hroom
  cases hlimit : limits.ownedBytes.filter (· < p.retained + source.length) with
  | some limit =>
    rw [hlimit] at h
    cases h
  | none =>
    rw [hlimit] at h
    cases h
    refine ⟨hroom, rfl, fun limit hsome => ?_⟩
    rw [hsome, Option.filter_eq_none_iff] at hlimit
    simpa using hlimit limit rfl

/-- A serialized dictionary adds at most one segment, a part of it. -/
theorem attachSerialized_ok (h : p.attachSerialized source limits = .ok q) :
    q.segments = p.segments ∨ p.segments.length ≠ 15 ∧
      ∃ segment, segment <:+: source ∧ q.segments = p.segments ++ [segment] := by
  simp only [attachSerialized, bind, Except.bind] at h
  split at h
  · cases h
  rename_i parsed _
  obtain ⟨description, start, stop⟩ := parsed
  dsimp only at h
  split at h
  · cases h
  split at h
  · split at h
    · cases h
    · rename_i hattach
      obtain ⟨hroom, heq, -⟩ := attach_ok hattach
      cases h
      refine .inr ⟨hroom, (source.take stop).drop start, ?_, by rw [heq]⟩
      exact (List.drop_suffix _ _).isInfix.trans (List.take_prefix _ _).isInfix
  · cases h
    exact .inl rfl

/-- One attachment: its source is within the limit, and at most one part of it is added. -/
theorem buildFrom_cons {attachment : DictionaryAttachment} {rest : List DictionaryAttachment}
    {sourceBytes : ℕ} (h : buildFrom limits (attachment :: rest) sourceBytes p = .ok q) :
    (∀ limit, limits.sourceBytes = some limit →
      sourceBytes + attachment.source.length ≤ limit) ∧
    ∃ p' : Prefixes, (p'.segments = p.segments ∨ p.segments.length ≠ 15 ∧
        ∃ segment, segment <:+: attachment.source ∧ p'.segments = p.segments ++ [segment]) ∧
      buildFrom limits rest (sourceBytes + attachment.source.length) p' = .ok q := by
  simp only [buildFrom, bind, Except.bind] at h
  split at h
  · cases h
  rename_i hwithin
  refine ⟨fun limit hlimit => ?_, ?_⟩
  · by_contra hgt
    rw [hlimit, Option.filter_some_pos (by simpa using hgt)] at hwithin
    cases hwithin
  cases attachment with
  | raw source =>
    dsimp only at h
    split at h
    · cases h
    rename_i p' hattach
    obtain ⟨hroom, heq, -⟩ := attach_ok hattach
    exact ⟨p', .inr ⟨hroom, source, List.infix_refl _, by rw [heq]⟩, h⟩
  | serialized source =>
    dsimp only at h
    split at h
    · cases h
    rename_i p' hattach
    exact ⟨p', attachSerialized_ok hattach, h⟩

/-- What a build keeps, however far it is. -/
theorem buildFrom_ok {attachments : List DictionaryAttachment} {sourceBytes : ℕ}
    (h : buildFrom limits attachments sourceBytes p = .ok q) (hp : p.segments.length ≤ 15) :
    q.segments.length ≤ 15 ∧
      (∀ segment ∈ q.segments, segment ∈ p.segments ∨
        ∃ attachment ∈ attachments, segment <:+: attachment.source) ∧
      ∀ limit, limits.sourceBytes = some limit → sourceBytes ≤ limit →
        sourceBytes + (attachments.map fun a => a.source.length).sum ≤ limit := by
  induction attachments generalizing sourceBytes p with
  | nil =>
    cases h
    exact ⟨hp, fun segment hsegment => .inl hsegment, fun limit _ hle => hle⟩
  | cons attachment rest ih =>
    obtain ⟨hwithin, p', hadd, h⟩ := buildFrom_cons h
    have hlen : p'.segments.length ≤ 15 := by
      rcases hadd with heq | ⟨hroom, segment, -, heq⟩
      · rw [heq]
        exact hp
      · rw [heq, List.length_append, List.length_singleton]
        omega
    obtain ⟨hcount, hparts, hbytes⟩ := ih h hlen
    refine ⟨hcount, fun segment hsegment => ?_, fun limit hlimit hle => ?_⟩
    · rcases hparts segment hsegment with hin | ⟨a, ha, hpart⟩
      · rcases hadd with heq | ⟨-, added, hpart, heq⟩
        · exact .inl (heq ▸ hin)
        · rw [heq, List.mem_append, List.mem_singleton] at hin
          refine hin.imp_right fun (hsame : segment = added) => ?_
          exact ⟨attachment, List.mem_cons_self, hsame ▸ hpart⟩
      · exact .inr ⟨a, List.mem_cons_of_mem _ ha, hpart⟩
    · rw [List.map_cons, List.sum_cons, ← Nat.add_assoc]
      exact hbytes limit hlimit (hwithin limit hlimit)

/-- **What is built keeps to its limits**: at most fifteen segments, each a part of a source
attached, and no more source bytes than allowed. -/
theorem build_ok {attachments : List DictionaryAttachment}
    (h : build attachments limits = .ok p) :
    p.segments.length ≤ 15 ∧
      (∀ segment ∈ p.segments, ∃ attachment ∈ attachments, segment <:+: attachment.source) ∧
      ∀ limit, limits.sourceBytes = some limit →
        (attachments.map fun a => a.source.length).sum ≤ limit := by
  obtain ⟨hcount, hparts, hbytes⟩ := buildFrom_ok h (Nat.zero_le 15)
  refine ⟨hcount, fun segment hsegment => ?_, fun limit hlimit => ?_⟩
  · exact (hparts segment hsegment).resolve_left List.not_mem_nil
  · have := hbytes limit hlimit (Nat.zero_le _)
    omega

end Prefixes

/-- What an operation decodes with: raw prefix segments, and a resolver of word
addresses if a description replaces the built-in words. -/
structure DictionaryRef where
  segments : List (List UInt8)
  customWord : Option (ℕ → ℕ → ℕ → Except DecodeError (List UInt8))

namespace DictionaryRef

def prefixLen (d : DictionaryRef) : ℕ := (d.segments.map List.length).sum

/-- Contiguous bytes from `offset` to the end of the segment holding it; empty
past the end of the prefix. -/
def runFrom : List (List UInt8) → ℕ → List UInt8
  | [], _ => []
  | segment :: rest, offset =>
    if offset < segment.length then segment.drop offset else runFrom rest (offset - segment.length)

def prefixRun (d : DictionaryRef) (offset : ℕ) : List UInt8 := runFrom d.segments offset

/-- The bytes of the prefix. -/
def bytes (d : DictionaryRef) : List UInt8 := d.segments.flatten

theorem bytes_length (d : DictionaryRef) : d.bytes.length = d.prefixLen := by
  simp [bytes, prefixLen, List.length_flatten]

theorem runFrom_eq (segments : List (List UInt8)) (offset : ℕ) :
    runFrom segments offset <+: segments.flatten.drop offset := by
  induction segments generalizing offset with
  | nil => simp [runFrom]
  | cons segment rest ih =>
    rw [runFrom, List.flatten_cons, List.drop_append]
    split
    · exact List.prefix_append _ _
    · rw [List.drop_eq_nil_of_le (by omega), List.nil_append]
      exact ih _

/-- A run is the prefix from its offset on, as far as its segment goes. -/
theorem prefixRun_prefix (d : DictionaryRef) (offset : ℕ) :
    d.prefixRun offset <+: d.bytes.drop offset := runFrom_eq _ _

end DictionaryRef

/-- The decode-only view of a dictionary. -/
def Prefixes.ref (p : Prefixes) (builtinWords : ℕ → UInt8) : DictionaryRef where
  segments := p.segments
  customWord := p.description.map fun d => d.resolve builtinWords

end Mbrotli
