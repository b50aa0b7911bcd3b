/-
# Growable buffers under a workspace budget

`Buffer` is a `Vec`: its elements, length and capacity. `Memory.reserve` is the
only way a buffer of the decoder gets capacity: it refuses what the limit does
not allow and otherwise counts the growth in `live`. The allocator is taken to
grant exactly what is asked for; then the requested size and the bytes already
live fit the address space together, so the source's two overflow checks hold.
-/
import Mbrotli.Decompressor.Config

namespace Mbrotli

/-- A `Vec`; `get` beyond `len` is whatever was there before. -/
structure Buffer (α : Type) where
  get : ℕ → α
  len : ℕ
  cap : ℕ

namespace Buffer

variable {α : Type}

def new (a : α) : Buffer α := ⟨fun _ => a, 0, 0⟩

def clear (b : Buffer α) : Buffer α := { b with len := 0 }

/-- Writes one element in place. -/
def set (b : Buffer α) (i : ℕ) (a : α) : Buffer α :=
  { b with get := fun j => if j = i then a else b.get j }

/-- Appends the elements `f 0, .., f (n - 1)`; a `Vec` that has no room grows by itself. -/
def extend (b : Buffer α) (n : ℕ) (f : ℕ → α) : Buffer α :=
  { get := fun j => if b.len ≤ j ∧ j < b.len + n then f (j - b.len) else b.get j
    len := b.len + n, cap := max b.cap (b.len + n) }

def push (b : Buffer α) (a : α) : Buffer α := b.extend 1 fun _ => a

/-- `Vec::resize`: appends copies of `a`, or truncates. -/
def resize (b : Buffer α) (n : ℕ) (a : α) : Buffer α :=
  if b.len < n then b.extend (n - b.len) fun _ => a else { b with len := n }

def toList (b : Buffer α) : List α := (List.range b.len).map b.get

@[simp] theorem clear_len (b : Buffer α) : b.clear.len = 0 := rfl
@[simp] theorem clear_cap (b : Buffer α) : b.clear.cap = b.cap := rfl
@[simp] theorem set_len (b : Buffer α) (i : ℕ) (a : α) : (b.set i a).len = b.len := rfl
@[simp] theorem set_cap (b : Buffer α) (i : ℕ) (a : α) : (b.set i a).cap = b.cap := rfl
@[simp] theorem extend_len (b : Buffer α) (n : ℕ) (f : ℕ → α) :
    (b.extend n f).len = b.len + n := rfl
@[simp] theorem push_len (b : Buffer α) (a : α) : (b.push a).len = b.len + 1 := rfl

@[simp] theorem resize_len (b : Buffer α) (n : ℕ) (a : α) : (b.resize n a).len = n := by
  unfold resize
  split
  · simp only [extend_len]; omega
  · rfl

theorem resize_get_of_lt (b : Buffer α) {n i : ℕ} (a : α) (h : i < b.len) :
    (b.resize n a).get i = b.get i := by
  unfold resize
  split
  · simp only [extend]; rw [if_neg (by omega)]
  · rfl

@[simp] theorem toList_length (b : Buffer α) : b.toList.length = b.len := by simp [toList]

/-- With room for them, appended elements leave the capacity alone. -/
theorem extend_cap (b : Buffer α) {n : ℕ} (f : ℕ → α) (h : b.len + n ≤ b.cap) :
    (b.extend n f).cap = b.cap := max_eq_left h

theorem resize_cap (b : Buffer α) {n : ℕ} (a : α) (h : n ≤ b.cap) : (b.resize n a).cap = b.cap := by
  unfold resize
  split
  · exact b.extend_cap _ (by omega)
  · rfl

end Buffer

/-- Heap bytes the decoder owns, and the operation's budget for them. -/
structure Memory where
  live : ℕ := 0
  limit : Option ℕ := none
  deriving DecidableEq, Repr

namespace Memory

variable {α : Type}

/-- Ensures capacity for `length` elements of `size` bytes under the workspace
policy without touching the length. The old storage is still live while its
replacement, which at least doubles it, is requested. -/
def reserve (m : Memory) (size : ℕ) (b : Buffer α) (length : ℕ) :
    Except DecodeError (Memory × Buffer α) :=
  if b.cap < length then
    let target := max length (min (b.cap * 2) u64Max)
    let next := m.live + target * size
    match m.limit.filter (· < next) with
    | some limit => .error (.memoryLimitExceeded limit)
    | none => .ok ({ m with live := m.live + (target - b.cap) * size }, { b with cap := target })
  else .ok (m, b)

def resize (m : Memory) (size : ℕ) (b : Buffer α) (length : ℕ) (default : α) :
    Except DecodeError (Memory × Buffer α) := do
  let (m, b) ← m.reserve size b length
  return (m, b.resize length default)

/-- What a granted reservation does: the elements stay, there is room. -/
theorem reserve_ok {m m' : Memory} {size length : ℕ} {b b' : Buffer α}
    (h : m.reserve size b length = .ok (m', b')) :
    m'.limit = m.limit ∧ b'.get = b.get ∧ b'.len = b.len ∧ b.cap ≤ b'.cap ∧ length ≤ b'.cap ∧
      m'.live + b.cap * size = m.live + b'.cap * size := by
  unfold reserve at h
  split at h
  · rename_i hlt
    cases hf : m.limit.filter (· < m.live + max length (min (b.cap * 2) u64Max) * size) with
    | some l => simp [hf] at h
    | none =>
      simp only [hf, Except.ok.injEq, Prod.mk.injEq] at h
      obtain ⟨rfl, rfl⟩ := h
      have hle : b.cap ≤ max length (min (b.cap * 2) u64Max) := by omega
      refine ⟨rfl, rfl, rfl, hle, le_max_left _ _, ?_⟩
      simp only
      rw [Nat.add_assoc, ← Nat.add_mul, Nat.sub_add_cancel hle]
  · cases h
    exact ⟨rfl, rfl, rfl, le_rfl, by omega, rfl⟩

/-- Without a limit every reservation is granted. -/
theorem reserve_of_unlimited {m : Memory} (hm : m.limit = none) (size length : ℕ) (b : Buffer α) :
    ∃ m' b', m.reserve size b length = .ok (m', b') := by
  unfold reserve
  split
  · simp [hm]
  · exact ⟨_, _, rfl⟩

/-- A refused reservation reports the limit. -/
theorem reserve_error {m : Memory} {size length : ℕ} {b : Buffer α} {e : DecodeError}
    (h : m.reserve size b length = .error e) :
    ∃ l, m.limit = some l ∧ e = .memoryLimitExceeded l := by
  unfold reserve at h
  split at h
  · cases hf : m.limit.filter (· < m.live + max length (min (b.cap * 2) u64Max) * size) with
    | some l =>
      simp only [hf, Except.error.injEq] at h
      exact ⟨l, (Option.filter_eq_some_iff.mp hf).1, h.symm⟩
    | none => simp [hf] at h
  · cases h

theorem resize_ok {m m' : Memory} {size length : ℕ} {b b' : Buffer α} {a : α}
    (h : m.resize size b length a = .ok (m', b')) :
    ∃ c, m.reserve size b length = .ok (m', c) ∧ b' = c.resize length a := by
  unfold resize at h
  cases hr : m.reserve size b length with
  | error e => simp [hr, bind, Except.bind] at h
  | ok x =>
    obtain ⟨m1, c⟩ := x
    simp only [hr, bind, Except.bind, pure, Except.pure, Except.ok.injEq, Prod.mk.injEq] at h
    obtain ⟨rfl, rfl⟩ := h
    exact ⟨c, rfl, rfl⟩

theorem resize_error {m : Memory} {size length : ℕ} {b : Buffer α} {a : α} {e : DecodeError}
    (h : m.resize size b length a = .error e) : m.reserve size b length = .error e := by
  unfold resize at h
  cases hr : m.reserve size b length with
  | error e' => simpa [hr, bind, Except.bind] using h
  | ok x => simp [hr, bind, Except.bind, pure, Except.pure] at h

end Memory
end Mbrotli
