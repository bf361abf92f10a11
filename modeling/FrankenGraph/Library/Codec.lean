import Mathlib

/-!
# Left-to-right byte codecs

A reader takes a value off the front of a byte string and leaves the rest. A reader codes for an
encoding when it succeeds on exactly the inputs that start with the encoding of what it returns;
encodings that are read this way are unique.

Results:
* `reads_take`, `reads_byte`, `reads_word`: fixed-size fields
* `Reads.optional`, `Reads.repeated`: presence bytes and counted lists
* `Reads.bind_iff`: one field of a record at a time
* `Decodes.unique`: one encoding a value
-/

namespace FrankenGraph

/-! ## Big-endian numbers -/

/-- The low `n` bytes of `value`, most significant first. -/
def bigEndian : Nat → Nat → List UInt8
  | 0, _ => []
  | n + 1, value => bigEndian n (value / 256) ++ [UInt8.ofNat value]

/-- The number a big-endian byte string denotes. -/
def ofBigEndian (bytes : List UInt8) : Nat :=
  bytes.foldl (fun value byte => value * 256 + byte.toNat) 0

@[simp]
theorem length_bigEndian (n value : Nat) : (bigEndian n value).length = n := by
  induction n generalizing value with
  | zero => rfl
  | succ n ih => simp [bigEndian, ih]

theorem ofBigEndian_append (bytes : List UInt8) (byte : UInt8) :
    ofBigEndian (bytes ++ [byte]) = ofBigEndian bytes * 256 + byte.toNat := by
  simp [ofBigEndian]

theorem ofBigEndian_bigEndian (n value : Nat) : ofBigEndian (bigEndian n value) = value % 256 ^ n := by
  induction n generalizing value with
  | zero => simp [bigEndian, ofBigEndian, Nat.mod_one]
  | succ n ih =>
    rw [bigEndian, ofBigEndian_append, ih, Nat.pow_succ', Nat.mod_mul]
    simp only [UInt8.toNat_ofNat']
    ring

theorem bigEndian_ofBigEndian (bytes : List UInt8) : bigEndian bytes.length (ofBigEndian bytes) = bytes := by
  induction bytes using List.reverseRecOn with
  | nil => rfl
  | append_singleton bytes byte ih =>
    have hlt : byte.toNat < 256 := byte.toNat_lt
    have hdiv : (ofBigEndian bytes * 256 + byte.toNat) / 256 = ofBigEndian bytes := by omega
    have hlow : UInt8.ofNat (ofBigEndian bytes * 256 + byte.toNat) = byte := by
      apply UInt8.toNat_inj.mp
      simp only [UInt8.toNat_ofNat']
      omega
    rw [List.length_append, List.length_singleton, bigEndian, ofBigEndian_append, hdiv, hlow, ih]

theorem ofBigEndian_lt (bytes : List UInt8) : ofBigEndian bytes < 256 ^ bytes.length := by
  have h := ofBigEndian_bigEndian bytes.length (ofBigEndian bytes)
  rw [bigEndian_ofBigEndian] at h
  rw [h]
  exact Nat.mod_lt _ (by positivity)

/-! ## Readers -/

/-- A reader takes a value off the front of its input, or fails. -/
abbrev Reader (α : Type) := StateT (List UInt8) Option α

variable {α β : Type}

/-- The reader accepts exactly the inputs that begin with the encoding of the value it returns. -/
def Reads (reader : Reader α) (encode : α → List UInt8) : Prop :=
  ∀ input a rest, reader input = some (a, rest) ↔ input = encode a ++ rest

/-- `Reads` for encodings that not every value has. -/
def Decodes (reader : Reader α) (Encodes : α → List UInt8 → Prop) : Prop :=
  ∀ input a rest, reader input = some (a, rest) ↔
    ∃ bytes, Encodes a bytes ∧ input = bytes ++ rest

variable {input rest : List UInt8}

theorem bind_eq_some {reader : Reader α} {next : α → Reader β} {b : β} :
    (reader >>= next) input = some (b, rest) ↔
      ∃ a middle, reader input = some (a, middle) ∧ next a middle = some (b, rest) := by
  simp only [bind, StateT.bind, Option.bind_eq_some_iff, Prod.exists]

theorem pure_eq_some {a b : α} :
    (pure a : Reader α) input = some (b, rest) ↔ b = a ∧ input = rest := by
  simp only [pure, StateT.pure, Option.some.injEq, Prod.mk.injEq, eq_comm]

/-- One field read: the input begins with its encoding, and the rest goes to the next reader. -/
theorem Reads.bind_iff {reader : Reader α} {encode : α → List UInt8} (h : Reads reader encode)
    {next : α → Reader β} {b : β} :
    (reader >>= next) input = some (b, rest) ↔
      ∃ a middle, input = encode a ++ middle ∧ next a middle = some (b, rest) := by
  simp only [bind_eq_some, h _ _ _]

namespace Decodes

variable {reader : Reader α} {Encodes : α → List UInt8 → Prop}

variable {a : α}

theorem read (h : Decodes reader Encodes) {bytes : List UInt8} (ha : Encodes a bytes)
    (rest : List UInt8) : reader (bytes ++ rest) = some (a, rest) :=
  (h _ _ _).mpr ⟨bytes, ha, rfl⟩

/-- Two encodings at the front of one input are the same encoding of the same value. -/
theorem unique (h : Decodes reader Encodes) {b : α} {bytes bytes' rest rest' : List UInt8}
    (ha : Encodes a bytes) (hb : Encodes b bytes') (heq : bytes ++ rest = bytes' ++ rest') :
    a = b ∧ bytes = bytes' ∧ rest = rest' := by
  have hread := h.read ha rest
  rw [heq, h.read hb rest'] at hread
  simp only [Option.some.injEq, Prod.mk.injEq] at hread
  obtain ⟨rfl, rfl⟩ := hread
  exact ⟨rfl, List.append_cancel_right heq, rfl⟩

end Decodes

/-! ## Fields -/

/-- Take exactly `n` bytes. -/
def take (n : Nat) : Reader (List.Vector UInt8 n) := fun input =>
  if h : n ≤ input.length then
    some (⟨input.take n, by rw [List.length_take, Nat.min_eq_left h]⟩, input.drop n)
  else
    none

theorem reads_take (n : Nat) : Reads (take n) List.Vector.toList := by
  intro input bytes rest
  obtain ⟨bytes, hlen⟩ := bytes
  show take n input = some (⟨bytes, hlen⟩, rest) ↔ input = bytes ++ rest
  unfold take
  constructor
  · intro h
    by_cases hn : n ≤ input.length
    · rw [dif_pos hn] at h
      obtain ⟨hfront, hrest⟩ := Prod.mk.inj (Option.some.inj h)
      rw [← Subtype.mk.inj hfront, ← hrest, List.take_append_drop]
    · rw [dif_neg hn] at h
      exact absurd h (by simp)
  · rintro rfl
    rw [dif_pos (by simp [hlen])]
    simp [List.take_left' hlen, List.drop_left' hlen]

/-- Take one byte. -/
def byte : Reader UInt8
  | [] => none
  | head :: rest => some (head, rest)

theorem reads_byte : Reads byte (fun head => [head]) := by
  intro input head rest
  cases input with
  | nil => simp [byte]
  | cons head' rest' => simp [byte]

/-- Take a big-endian number of `n` bytes. -/
def word (n w : Nat) : Reader (BitVec w) := do
  let bytes ← take n
  return BitVec.ofNat w (ofBigEndian bytes.toList)

/-- The big-endian encoding of a number in `n` bytes. It is kept folded: substituting one for a
variable would otherwise compute all its digits. -/
@[irreducible]
def wordBytes (n : Nat) {w : Nat} (value : BitVec w) : List UInt8 :=
  bigEndian n value.toNat

@[simp]
theorem length_wordBytes (n : Nat) {w : Nat} (value : BitVec w) :
    (wordBytes n value).length = n := by
  rw [wordBytes, length_bigEndian]

theorem reads_word {n w : Nat} (hw : 2 ^ w = 256 ^ n) : Reads (word n w) (wordBytes n) := by
  intro input value rest
  unfold word
  rw [(reads_take n).bind_iff]
  simp only [pure_eq_some]
  constructor
  · rintro ⟨bytes, middle, rfl, rfl, rfl⟩
    have hlt := ofBigEndian_lt bytes.toList
    rw [List.Vector.toList_length] at hlt
    have hbytes := bigEndian_ofBigEndian bytes.toList
    rw [List.Vector.toList_length] at hbytes
    rw [wordBytes, BitVec.toNat_ofNat, hw, Nat.mod_eq_of_lt hlt, hbytes]
  · rintro rfl
    refine ⟨⟨wordBytes n value, length_wordBytes n value⟩, rest, rfl, ?_, rfl⟩
    have hlt : value.toNat < 256 ^ n := hw ▸ value.isLt
    show value = BitVec.ofNat w (ofBigEndian (wordBytes n value))
    rw [wordBytes, ofBigEndian_bigEndian, Nat.mod_eq_of_lt hlt, BitVec.ofNat_toNat, BitVec.setWidth_eq]

/-- A presence byte, then the value when it is present. Other tags are refused. -/
def optional (reader : Reader α) : Reader (Option α) := do
  match ← byte with
  | 0 => return none
  | 1 => return some (← reader)
  | _ => failure

def optionalBytes (encode : α → List UInt8) : Option α → List UInt8
  | none => [0]
  | some a => 1 :: encode a

theorem Reads.optional {reader : Reader α} {encode : α → List UInt8} (h : Reads reader encode) :
    Reads (optional reader) (optionalBytes encode) := by
  intro input value rest
  unfold FrankenGraph.optional
  rw [reads_byte.bind_iff]
  constructor
  · rintro ⟨tag, middle, rfl, hnext⟩
    split at hnext
    · obtain ⟨rfl, rfl⟩ := pure_eq_some.mp hnext
      rfl
    · obtain ⟨a, last, rfl, hpure⟩ := h.bind_iff.mp hnext
      obtain ⟨rfl, rfl⟩ := pure_eq_some.mp hpure
      rfl
    · exact absurd hnext (by simp [failure, StateT.failure])
  · rintro rfl
    cases value with
    | none => exact ⟨0, rest, rfl, pure_eq_some.mpr ⟨rfl, rfl⟩⟩
    | some a =>
      refine ⟨1, encode a ++ rest, rfl, ?_⟩
      exact h.bind_iff.mpr ⟨a, rest, rfl, pure_eq_some.mpr ⟨rfl, rfl⟩⟩

/-- Read a value `count` times. -/
def repeated (reader : Reader α) : Nat → Reader (List α)
  | 0 => return []
  | count + 1 => do
    let first ← reader
    let others ← repeated reader count
    return first :: others

theorem Reads.repeated {reader : Reader α} {encode : α → List UInt8} (h : Reads reader encode)
    (count : Nat) :
    Decodes (repeated reader count)
      (fun values bytes => values.length = count ∧ bytes = values.flatMap encode) := by
  induction count with
  | zero =>
    intro input values rest
    simp only [FrankenGraph.repeated, pure_eq_some, List.length_eq_zero_iff]
    constructor
    · rintro ⟨rfl, rfl⟩
      exact ⟨[], ⟨rfl, rfl⟩, rfl⟩
    · rintro ⟨bytes, ⟨rfl, rfl⟩, rfl⟩
      exact ⟨rfl, rfl⟩
  | succ count ih =>
    intro input values rest
    simp only [FrankenGraph.repeated, h.bind_iff, bind_eq_some, ih _ _ _, pure_eq_some]
    constructor
    · rintro ⟨first, middle, rfl, others, last, ⟨bytes, ⟨hlen, rfl⟩, rfl⟩, rfl, rfl⟩
      exact ⟨_, ⟨by simp [hlen], rfl⟩, by simp⟩
    · rintro ⟨bytes, ⟨hlen, rfl⟩, rfl⟩
      obtain ⟨first, others, rfl⟩ := List.exists_cons_of_length_eq_add_one hlen
      refine ⟨first, others.flatMap encode ++ rest, by simp, others, rest, ?_, rfl, rfl⟩
      exact ⟨_, ⟨by simpa using hlen, rfl⟩, rfl⟩

end FrankenGraph
