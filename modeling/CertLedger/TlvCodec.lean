import Mathlib.Algebra.Group.Nat.Defs
import Mathlib.Data.Nat.Basic
import Mathlib.Data.List.Basic

/-!
# Type-length-value elements over octet lists

An element is a type number and a value. On the wire both the type and the
length of the value are variable-size numbers of one, three, five or nine
octets. A list of the model can be longer than any buffer a program holds, so
lengths of 2^64 and more get an escape after the nine-octet form of zero; the
reader looks for it only when at least 2^64 octets follow, and therefore reads
every real buffer exactly as the format says. With the escape the round trip
of elements holds with no bound on their lengths.
-/
namespace CertLedger.TlvCodec

abbrev Buffer := List UInt8

/-- The low `k` octets of a number, most significant first. -/
def octets : ℕ → ℕ → Buffer
  | 0, _ => []
  | k + 1, n => octets k (n / 256) ++ [UInt8.ofNat n]

def number (bs : Buffer) : ℕ := bs.foldl (fun n b => 256 * n + b.toNat) 0

@[simp] theorem octets_length (k n : ℕ) : (octets k n).length = k := by
  induction k generalizing n with
  | zero => rfl
  | succ k ih => simp [octets, ih]

theorem number_append_singleton (bs : Buffer) (b : UInt8) :
    number (bs ++ [b]) = 256 * number bs + b.toNat := by
  simp [number, List.foldl_append]

theorem number_octets (k n : ℕ) : number (octets k n) = n % 256 ^ k := by
  induction k generalizing n with
  | zero => simp [octets, number, Nat.mod_one]
  | succ k ih =>
      have h : n % 256 ^ (k + 1) = n % 256 + 256 * (n / 256 % 256 ^ k) := by
        rw [Nat.pow_succ', Nat.mod_mul]
      rw [octets, number_append_singleton, ih, UInt8.toNat_ofNat', h]
      exact Nat.add_comm _ _

theorem number_octets_of_lt {k n : ℕ} (h : n < 256 ^ k) : number (octets k n) = n := by
  rw [number_octets, Nat.mod_eq_of_lt h]

/-! ## Variable-size numbers -/

/-- Unary form of a length no buffer can have. -/
def escape (n : ℕ) : Buffer := List.replicate n 1 ++ [0]

def readEscape : Buffer → Option (ℕ × Buffer)
  | [] => none
  | b :: bs => if b = 1 then (readEscape bs).map fun r => (r.1 + 1, r.2) else some (0, bs)

theorem readEscape_append (n : ℕ) (rest : Buffer) :
    readEscape (escape n ++ rest) = some (n, rest) := by
  induction n with
  | zero => rfl
  | succ n ih =>
      have h : escape (n + 1) ++ rest = 1 :: (escape n ++ rest) := rfl
      rw [h, readEscape, if_pos rfl, ih]
      rfl

/-- TLV-TYPE and TLV-LENGTH numbers, always in the shortest form. -/
def varNumber (n : ℕ) : Buffer :=
  if n < 253 then [UInt8.ofNat n]
  else if n < 2 ^ 16 then 253 :: octets 2 n
  else if n < 2 ^ 32 then 254 :: octets 4 n
  else if n < 2 ^ 64 then 255 :: octets 8 n
  else 255 :: (octets 8 0 ++ escape n)

def readVarNumber : Buffer → Option (ℕ × Buffer)
  | [] => none
  | b :: bs =>
      if b < 253 then some (b.toNat, bs) else
        let k := if b = 253 then 2 else if b = 254 then 4 else 8
        if bs.length < k then none else
          let n := number (bs.take k)
          let rest := bs.drop k
          if b = 255 ∧ n = 0 ∧ 2 ^ 64 ≤ rest.length then readEscape rest else some (n, rest)

theorem varNumber_ne_nil (n : ℕ) : varNumber n ≠ [] := by
  unfold varNumber
  split_ifs <;> simp

theorem readVarNumber_short {n : ℕ} (h : n < 253) (rest : Buffer) :
    readVarNumber (UInt8.ofNat n :: rest) = some (n, rest) := by
  have hn : (UInt8.ofNat n).toNat = n := by
    rw [UInt8.toNat_ofNat']
    omega
  have hlt : UInt8.ofNat n < 253 := by
    rw [UInt8.lt_iff_toNat_lt, hn]
    exact h
  rw [readVarNumber, if_pos hlt, hn]

/-- The three long forms differ only in their marker and their size. -/
theorem readVarNumber_long {b : UInt8} {k n : ℕ} (hb : ¬ b < 253)
    (hk : (if b = 253 then 2 else if b = 254 then 4 else 8) = k)
    (hn : n < 256 ^ k) (h0 : n ≠ 0) (rest : Buffer) :
    readVarNumber (b :: (octets k n ++ rest)) = some (n, rest) := by
  have htake : (octets k n ++ rest).take k = octets k n := by
    rw [List.take_append_of_le_length (by simp), List.take_of_length_le (by simp)]
  have hdrop : (octets k n ++ rest).drop k = rest := by
    rw [List.drop_append_of_le_length (by simp), List.drop_of_length_le (by simp), List.nil_append]
  rw [readVarNumber, if_neg hb, hk]
  simp only [htake, hdrop, number_octets_of_lt hn, h0, false_and, and_false, if_false]
  rw [if_neg (by simp)]

theorem readVarNumber_append (n : ℕ) (rest : Buffer) :
    readVarNumber (varNumber n ++ rest) = some (n, rest) := by
  unfold varNumber
  split_ifs with h₁ h₂ h₃ h₄
  · exact readVarNumber_short h₁ rest
  · exact readVarNumber_long (by decide) (by decide) (by omega) (by omega) rest
  · exact readVarNumber_long (by decide) (by decide) (by omega) (by omega) rest
  · exact readVarNumber_long (by decide) (by decide) (by omega) (by omega) rest
  · -- the escape is longer than 2^64 octets, so the reader looks for it
    have hzero : octets 8 0 = [0, 0, 0, 0, 0, 0, 0, 0] := by decide
    have hlen : 2 ^ 64 ≤ (escape n ++ rest).length := by
      simp only [escape, List.length_append, List.length_replicate, List.length_singleton]
      omega
    simp only [hzero, List.cons_append, List.nil_append, readVarNumber]
    rw [if_neg (by decide), if_neg (by simp), if_pos ⟨trivial, rfl, hlen⟩]
    exact readEscape_append n rest

/-! ## Elements -/

@[ext] structure Block where
  type : ℕ
  value : Buffer
  type_pos : 0 < type
  type_lt : type < 2 ^ 32
  deriving DecidableEq

namespace Block

def wire (b : Block) : Buffer := varNumber b.type ++ (varNumber b.value.length ++ b.value)

theorem wire_ne_nil (b : Block) : b.wire ≠ [] := by
  simp [wire, varNumber_ne_nil]

theorem wire_length_pos (b : Block) : 0 < b.wire.length := List.length_pos_iff.mpr b.wire_ne_nil

theorem value_length_le_wire (b : Block) : b.value.length ≤ b.wire.length := by
  simp only [wire, List.length_append]
  omega

end Block

/-- The first element of a buffer and the octets after it. -/
def readBlock (bs : Buffer) : Option (Block × Buffer) :=
  match readVarNumber bs with
  | none => none
  | some (type, bs) =>
      if h : 0 < type ∧ type < 2 ^ 32 then
        match readVarNumber bs with
        | none => none
        | some (length, bs) =>
            if length ≤ bs.length then
              some (⟨type, bs.take length, h.1, h.2⟩, bs.drop length)
            else none
      else none

theorem readBlock_wire (b : Block) (rest : Buffer) :
    readBlock (b.wire ++ rest) = some (b, rest) := by
  simp only [readBlock, Block.wire, List.append_assoc, readVarNumber_append]
  rw [dif_pos ⟨b.type_pos, b.type_lt⟩, if_pos (by simp)]
  simp

/-- All elements of a buffer; the fuel only has to reach the number of elements. -/
def readBlocks : ℕ → Buffer → Option (List Block)
  | _, [] => some []
  | 0, _ :: _ => none
  | fuel + 1, b :: bs =>
      match readBlock (b :: bs) with
      | none => none
      | some (block, rest) => (readBlocks fuel rest).map (block :: ·)

def wireAll (blocks : List Block) : Buffer := blocks.flatMap Block.wire

@[simp] theorem wireAll_cons (b : Block) (bs : List Block) :
    wireAll (b :: bs) = b.wire ++ wireAll bs := rfl

@[simp] theorem wireAll_append (bs cs : List Block) :
    wireAll (bs ++ cs) = wireAll bs ++ wireAll cs := by
  simp [wireAll]

theorem length_le_wireAll (blocks : List Block) : blocks.length ≤ (wireAll blocks).length := by
  induction blocks with
  | nil => simp
  | cons b bs ih =>
      have := b.wire_length_pos
      simp only [wireAll_cons, List.length_cons, List.length_append]
      omega

theorem readBlocks_wireAll (blocks : List Block) (fuel : ℕ) (h : blocks.length ≤ fuel) :
    readBlocks fuel (wireAll blocks) = some blocks := by
  induction blocks generalizing fuel with
  | nil => cases fuel <;> rfl
  | cons b bs ih =>
      obtain _ | fuel := fuel
      · simp at h
      · have hb := readBlock_wire b (wireAll bs)
        obtain ⟨c, cs, hc⟩ := List.exists_cons_of_ne_nil b.wire_ne_nil
        rw [wireAll_cons, hc, List.cons_append, readBlocks, ← List.cons_append, ← hc, hb]
        simp only [ih fuel (by simpa using h), Option.map_some]

namespace Block

/-- The sub-elements that parsing the value gives. -/
def elements (b : Block) : Option (List Block) := readBlocks b.value.length b.value

theorem elements_wireAll {b : Block} {blocks : List Block} (h : b.value = wireAll blocks) :
    b.elements = some blocks := by
  rw [elements, h]
  exact readBlocks_wireAll blocks _ (length_le_wireAll blocks)

end Block

/-! ## Beginnings of buffers -/

/-- A buffer that is short enough has no escape. -/
theorem readVarNumber_cons {b : UInt8} {bs : Buffer} (hlength : bs.length < 2 ^ 64) :
    readVarNumber (b :: bs) =
      if b < 253 then some (b.toNat, bs) else
        let k := if b = 253 then 2 else if b = 254 then 4 else 8
        if bs.length < k then none else some (number (bs.take k), bs.drop k) := by
  rw [readVarNumber]
  generalize (if b = 253 then 2 else if b = 254 then 4 else 8) = k
  have hno : ¬(b = 255 ∧ number (bs.take k) = 0 ∧ 2 ^ 64 ≤ (bs.drop k).length) := by
    rintro ⟨-, -, hlong⟩
    rw [List.length_drop] at hlong
    omega
  dsimp only
  rw [if_neg hno]

theorem length_readVarNumber_le {bs rest : Buffer} {n : ℕ} (hlength : bs.length < 2 ^ 64)
    (h : readVarNumber bs = some (n, rest)) : rest.length ≤ bs.length := by
  cases bs with
  | nil => cases h
  | cons b bs =>
      rw [List.length_cons] at hlength
      rw [readVarNumber_cons (by omega)] at h
      dsimp only at h
      generalize (if b = 253 then 2 else if b = 254 then 4 else 8) = k at h
      split_ifs at h with hb hk
      · obtain ⟨-, rfl⟩ := Prod.mk.inj (Option.some.inj h)
        exact Nat.le_succ _
      · obtain ⟨-, rfl⟩ := Prod.mk.inj (Option.some.inj h)
        rw [List.length_drop, List.length_cons]
        omega

/-- What is read from a buffer is read from every longer one. -/
theorem readVarNumber_append_right {bs rest : Buffer} {n : ℕ} (ext : Buffer)
    (hlength : (bs ++ ext).length < 2 ^ 64) (h : readVarNumber bs = some (n, rest)) :
    readVarNumber (bs ++ ext) = some (n, rest ++ ext) := by
  cases bs with
  | nil => cases h
  | cons b bs =>
      rw [List.cons_append, List.length_cons] at hlength
      have hlonger : (bs ++ ext).length < 2 ^ 64 := by omega
      have hshorter : bs.length < 2 ^ 64 := by
        rw [List.length_append] at hlonger
        omega
      rw [readVarNumber_cons hshorter] at h
      rw [List.cons_append, readVarNumber_cons hlonger]
      dsimp only at h ⊢
      generalize (if b = 253 then 2 else if b = 254 then 4 else 8) = k at h ⊢
      split_ifs at h with hb hk
      · obtain ⟨rfl, rfl⟩ := Prod.mk.inj (Option.some.inj h)
        rw [if_pos hb]
      · have hle := Nat.not_lt.mp hk
        obtain ⟨rfl, rfl⟩ := Prod.mk.inj (Option.some.inj h)
        rw [if_neg hb, if_neg (by rw [List.length_append]; omega),
          List.take_append_of_le_length hle, List.drop_append_of_le_length hle]

theorem readBlock_append_right {bs rest : Buffer} {b : Block} (ext : Buffer)
    (hlength : (bs ++ ext).length < 2 ^ 64) (h : readBlock bs = some (b, rest)) :
    readBlock (bs ++ ext) = some (b, rest ++ ext) := by
  unfold readBlock at h ⊢
  cases htype : readVarNumber bs with
  | none => simp [htype] at h
  | some r =>
      obtain ⟨type, bs'⟩ := r
      have hle := length_readVarNumber_le (by rw [List.length_append] at hlength; omega) htype
      rw [htype] at h
      rw [readVarNumber_append_right ext hlength htype]
      dsimp only at h ⊢
      split_ifs at h ⊢ with hrange
      have hlength' : (bs' ++ ext).length < 2 ^ 64 := by
        rw [List.length_append] at hlength ⊢
        omega
      cases hlen : readVarNumber bs' with
      | none => simp [hlen] at h
      | some r =>
          obtain ⟨length, bs''⟩ := r
          rw [hlen] at h
          rw [readVarNumber_append_right ext hlength' hlen]
          dsimp only at h ⊢
          split_ifs at h with hfits
          obtain ⟨rfl, rfl⟩ := Prod.mk.inj (Option.some.inj h)
          rw [if_pos (by rw [List.length_append]; omega), List.take_append_of_le_length hfits,
            List.drop_append_of_le_length hfits]

/-- The wire of an element does not begin with a shorter element. -/
theorem readBlock_prefix_wire {bs rest : Buffer} {b c : Block} (hlength : b.wire.length < 2 ^ 64)
    (hb : bs <+: b.wire) (h : readBlock bs = some (c, rest)) : bs = b.wire := by
  obtain ⟨ext, hext⟩ := hb
  have hread := readBlock_append_right ext (hext ▸ hlength) h
  have hwhole := readBlock_wire b []
  rw [List.append_nil] at hwhole
  rw [hext, hwhole] at hread
  have hnil := congrArg Prod.snd (Option.some.inj hread)
  obtain rfl : ext = [] := (List.append_eq_nil_iff.mp hnil.symm).2
  rw [← hext, List.append_nil]

/-! ## Nonnegative integers -/

/-- The value of a nonnegative integer element: one, two, four or eight octets. -/
def nonNegativeInteger (n : ℕ) : Buffer :=
  if n < 2 ^ 8 then octets 1 n
  else if n < 2 ^ 16 then octets 2 n
  else if n < 2 ^ 32 then octets 4 n
  else octets 8 n

def readNonNegativeInteger (bs : Buffer) : Option ℕ :=
  if bs.length = 1 ∨ bs.length = 2 ∨ bs.length = 4 ∨ bs.length = 8 then some (number bs) else none

theorem readNonNegativeInteger_octets {k n : ℕ} (hk : k = 1 ∨ k = 2 ∨ k = 4 ∨ k = 8)
    (hn : n < 256 ^ k) : readNonNegativeInteger (octets k n) = some n := by
  rw [readNonNegativeInteger, octets_length, if_pos hk, number_octets_of_lt hn]

theorem readNonNegativeInteger_of_lt {n : ℕ} (h : n < 2 ^ 64) :
    readNonNegativeInteger (nonNegativeInteger n) = some n := by
  unfold nonNegativeInteger
  split_ifs with h₁ h₂ h₃
  · exact readNonNegativeInteger_octets (by decide) (by omega)
  · exact readNonNegativeInteger_octets (by decide) (by omega)
  · exact readNonNegativeInteger_octets (by decide) (by omega)
  · exact readNonNegativeInteger_octets (by decide) (by omega)

end CertLedger.TlvCodec
