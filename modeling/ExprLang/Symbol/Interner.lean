import ExprLang.Text.Utf8

namespace ExprLang

-- A handle for a text. Only the interner that gave it out can tell which.
structure Symbol where
  id : Int
  deriving DecidableEq

def Symbol.format (s : Symbol) : String :=
  s!"Symbol({s.id})"

-- Room for `capacity` bytes, the first of which are taken by `contents`.
structure Buffer where
  capacity : Nat
  contents : Array UInt8
  fits : contents.size ≤ capacity

namespace Buffer

def empty (capacity : Nat) : Buffer where
  capacity := capacity
  contents := #[]
  fits := Nat.zero_le _

def used (b : Buffer) : Nat :=
  b.contents.size

def write (b : Buffer) (data : Bytes) (h : b.used + data.length ≤ b.capacity) : Buffer :=
  { b with
    contents := b.contents ++ data.toArray
    fits := by simpa [used] using h }

@[simp]
theorem used_write (b : Buffer) (data : Bytes) (h : b.used + data.length ≤ b.capacity) :
    (b.write data h).used = b.used + data.length := by
  simp [write, used]

-- The `length` bytes from `start` on.
def slice (b : Buffer) (start length : Nat) : Bytes :=
  (b.contents.extract start (start + length)).toList

end Buffer

-- Where the bytes of a text are: in the buffer with the given number, of which the first `archive`
-- ones are archived and the next is the current one.
structure Slice where
  buffer : Nat
  start : Nat
  length : Nat
  deriving DecidableEq

-- The least power of two that is not below `n`.
def nextPowerOfTwo (n : Int) : Nat :=
  if n ≤ 1 then 1 else Nat.pow 2 ((n - 1).toNat.log2 + 1)

theorem le_nextPowerOfTwo (n : Nat) : n ≤ nextPowerOfTwo n := by
  simp only [nextPowerOfTwo]
  split
  · omega
  · have h : (n - 1 : Int).toNat < Nat.pow 2 _ := Nat.lt_log2_self
    omega

-- A table of distinct texts. Their bytes are written one after another into a buffer, which is
-- archived and followed by a larger one when it has no room for the next text.
structure Interner where
  names : List Text
  slices : List Slice
  current : Buffer
  archive : List Buffer

namespace Interner

def empty : Interner where
  names := []
  slices := []
  current := .empty 0
  archive := []

def size (i : Interner) : Nat :=
  i.slices.length

def capacity (i : Interner) : Nat :=
  i.current.capacity

def used (i : Interner) : Nat :=
  i.current.used

-- Makes room for `n` bytes in the current buffer.
def reserve (i : Interner) (n : Nat) : Interner :=
  if i.used + n ≤ i.capacity then i
  else
    { i with
      archive := i.archive ++ [i.current]
      current := .empty (nextPowerOfTwo (max i.capacity n + 1 : Nat)) }

theorem reserve_room (i : Interner) (n : Nat) :
    (i.reserve n).used + n ≤ (i.reserve n).capacity := by
  simp only [reserve]
  split
  case isTrue h => exact h
  case isFalse _ =>
    have h := le_nextPowerOfTwo (max i.capacity n + 1)
    simp only [used, capacity, Buffer.used, Buffer.empty, Array.size_empty] at h ⊢
    omega

@[simp]
theorem names_reserve (i : Interner) (n : Nat) : (i.reserve n).names = i.names := by
  simp only [reserve]
  split <;> rfl

@[simp]
theorem slices_reserve (i : Interner) (n : Nat) : (i.reserve n).slices = i.slices := by
  simp only [reserve]
  split <;> rfl

-- Writes the bytes of a new text.
def store (i : Interner) (name : Text) : Interner :=
  let data := name.encode
  let r := i.reserve data.length
  { r with
    names := r.names ++ [name]
    slices := r.slices ++ [⟨r.archive.length, r.used, data.length⟩]
    current := r.current.write data (i.reserve_room data.length) }

@[simp]
theorem names_store (i : Interner) (name : Text) : (i.store name).names = i.names ++ [name] := by
  simp [store]

@[simp]
theorem size_store (i : Interner) (name : Text) : (i.store name).size = i.size + 1 := by
  simp [store, size]

-- The handle of a text that is free of surrogates, which is added if it is new.
def insert (i : Interner) (name : Text) : Symbol × Interner :=
  match i.names.idxOf? name with
  | some n => (⟨n⟩, i)
  | none => (⟨i.names.length⟩, i.store name)

-- The handle of any text. One with surrogates cannot be encoded, which is found out before anything
-- is stored.
def intern (i : Interner) (name : Text) : Except EncodeFault Symbol × Interner :=
  match name.surrogatesFrom 0 with
  | some fault => (.error fault, i)
  | none =>
    let (symbol, j) := i.insert name
    (.ok symbol, j)

def buffer? (i : Interner) (n : Nat) : Option Buffer :=
  (i.archive ++ [i.current])[n]?

def bytes? (i : Interner) (s : Slice) : Option Bytes :=
  i.buffer? s.buffer |>.map fun b => b.slice s.start s.length

-- The text behind a handle. Handles below zero count from the last text.
def lookup? (i : Interner) (s : Symbol) : Option Text := do
  let id := if s.id < 0 then s.id + i.size else s.id
  guard (0 ≤ id)
  let slice ← i.slices[id.toNat]?
  let bytes ← i.bytes? slice
  (Utf8.decode .refused bytes).toOption

def contains (i : Interner) (s : Symbol) : Bool :=
  0 ≤ s.id && s.id < i.size

-- All texts in the order of their handles.
def texts (i : Interner) : List Text :=
  (List.range i.size).filterMap fun (n : Nat) => i.lookup? ⟨n⟩

end Interner
end ExprLang
