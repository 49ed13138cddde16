import ExprLang.Corpus.Chance

namespace ExprLang

-- The Mersenne twister with 624 words of 32 bits.
structure Twister where
  words : Array UInt32
  index : Nat

namespace Twister

def size : Nat := 624

-- Mixes the word before position `i` into the word there.
def mix (words : Array UInt32) (i : Nat) (factor : UInt32) : UInt32 :=
  let w := words.getD (i - 1) 0
  words.getD i 0 ^^^ ((w ^^^ (w >>> 30)) * factor)

def ofWord (seed : UInt32) : Array UInt32 :=
  (List.range (size - 1)).foldl (fun (words : Array UInt32) i =>
    let w := words.getD i 0
    words.push ((1812433253 : UInt32) * (w ^^^ (w >>> 30)) + .ofNat (i + 1))) #[seed]

-- A state that is being filled, and the position that is next.
structure Filling where
  words : Array UInt32
  index : Nat

-- Writes a word, and goes on behind the first word after the last one.
def Filling.put (f : Filling) (w : UInt32) : Filling :=
  let words := f.words.setIfInBounds f.index w
  if f.index + 1 < size then ⟨words, f.index + 1⟩
  else ⟨words.setIfInBounds 0 (words.getD (size - 1) 0), 1⟩

def ofKey (key : Array UInt32) : Twister :=
  let first := (List.range (max size key.size)).foldl (fun (f : Filling) k =>
    let j := k % key.size
    f.put (mix f.words f.index 1664525 + key.getD j 0 + .ofNat j)) ⟨ofWord 19650218, 1⟩
  let second := (List.range (size - 1)).foldl (fun (f : Filling) _ =>
    f.put (mix f.words f.index 1566083941 - .ofNat f.index)) first
  ⟨second.words.setIfInBounds 0 0x80000000, size⟩

-- The words of a number, least significant first. Zero has one word.
def wordsOf (n : Nat) : List UInt32 :=
  if _h : n < 0x100000000 then [.ofNat n]
  else .ofNat (n % 0x100000000) :: wordsOf (n / 0x100000000)
termination_by n
decreasing_by omega

-- The sign of a seed does not matter.
def ofSeed (seed : Int) : Twister :=
  ofKey (wordsOf seed.natAbs).toArray

-- Makes new words of all old ones.
def refill (words : Array UInt32) : Array UInt32 :=
  (List.range size).foldl (fun (words : Array UInt32) i =>
    let w := (words.getD i 0 &&& 0x80000000) ||| (words.getD ((i + 1) % size) 0 &&& 0x7FFFFFFF)
    let low : UInt32 := if w &&& 1 = 0 then 0 else 0x9908B0DF
    words.setIfInBounds i (words.getD ((i + 397) % size) 0 ^^^ (w >>> 1) ^^^ low)) words

def temper (w : UInt32) : UInt32 :=
  let w := w ^^^ (w >>> 11)
  let w := w ^^^ ((w <<< 7) &&& 0x9D2C5680)
  let w := w ^^^ ((w <<< 15) &&& 0xEFC60000)
  w ^^^ (w >>> 18)

def next : StateM Twister UInt32 := do
  let t ← get
  let t := if t.index < size then t else ⟨refill t.words, 0⟩
  set { t with index := t.index + 1 }
  return temper (t.words.getD t.index 0)

-- The number of bits of a number.
def bits (n : Nat) : Nat :=
  if n = 0 then 0 else n.log2 + 1

-- Draws as many bits as `n` has until they are below `n`, at most `tries` times. Each try succeeds
-- with a chance of more than one half, so that the last resort is never needed in practice.
def belowWithin (n : Nat) (h₀ : 0 < n) : (tries : Nat) → StateM Twister (Fin n)
  | 0 => return ⟨0, h₀⟩
  | tries + 1 => do
    let k := (← next).toNat >>> (32 - bits n)
    if h : k < n then return ⟨k, h⟩ else belowWithin n h₀ tries

instance : Chance Twister where
  uniform := do
    let a := (← next) >>> 5
    let b := (← next) >>> 6
    return Float.ofNat (a.toNat * 0x4000000 + b.toNat) / Float.ofNat 0x20000000000000
  below n h := belowWithin n h 1000

end Twister
end ExprLang
