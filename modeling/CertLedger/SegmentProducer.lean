import CertLedger.NdnPackets
import CertLedger.Reassembly
import Mathlib.Algebra.Group.Int.Defs

/-!
# The producer of segments

`populateStore` cuts a block into Data. Offsets and sizes go through `size_t` and
`int` as in the source, where both are exact up to blocks of 2^31 octets.
-/
namespace CertLedger.SegmentProducer
open TlvCodec NdnObjects NdnPackets Reassembly

/-- A `size_t` as an `int`. -/
def toInt (n : ℕ) : ℤ := Int.bmod n (2 ^ 32)

/-- An `int` as a `size_t`. -/
def toSize (i : ℤ) : ℕ := (i % 2 ^ 64).toNat

/-- `a - b` in `size_t`. -/
def sizeSub (a b : ℕ) : ℕ := toSize (a - b : ℤ)

structure Options where
  maxSegmentSize : ℕ := 8000

section
variable (options : Options) (versionedPrefix : Name) (block : Block)

def total : ℤ := toInt (sizeSub block.wire.length 1 / options.maxSegmentSize + 1)

def copyOffset (count : ℤ) : ℤ := toInt (toSize count * options.maxSegmentSize % 2 ^ 64)

def copySize (copyOffset : ℤ) : ℤ :=
  toInt (if options.maxSegmentSize < sizeSub block.wire.length (toSize copyOffset) then
    options.maxSegmentSize
  else sizeSub block.wire.length (toSize copyOffset))

/-- What a turn of the loop copies into the buffer and from there into the Data. -/
def copied (count : ℤ) : Buffer :=
  let offset := copyOffset options count
  (block.wire.drop offset.toNat).take (copySize options block offset).toNat

/-- The loop, for as many turns as are left. -/
def populate : ℕ → ℤ → List Packet → List Packet
  | 0, _, store => store
  | turns + 1, count, store =>
      populate turns (count + 1) (store ++ [{
        name := versionedPrefix ++ [fromSegment store.length]
        content := ⟨tlvContent, copied options block count, tlvContent_pos, tlvContent_lt⟩ }])

def populateStore : List Packet :=
  let store := populate options versionedPrefix block (total options block).toNat 0 []
  let store := if store.isEmpty then
      [{ name := versionedPrefix ++ [fromSegment 0]
         content := ⟨tlvContent, [], tlvContent_pos, tlvContent_lt⟩ }]
    else store
  store.map fun data => { data with finalBlock := some (fromSegment (store.length - 1)) }

end

/-! ## The segments of a block -/

/-- Segment `k` of an object with `n` segments. -/
def segment (versionedPrefix : Name) (n : ℕ) (content : Buffer) (k : ℕ) : Packet where
  name := versionedPrefix ++ [fromSegment k]
  content := ⟨tlvContent, content, tlvContent_pos, tlvContent_lt⟩
  finalBlock := some (fromSegment (n - 1))

/-- How many segments a block has. -/
def segments (size : ℕ) (block : Block) : ℕ := (block.wire.length - 1) / size + 1

theorem toInt_of_lt {n : ℕ} (h : n < 2 ^ 31) : toInt n = n := by
  apply Int.bmod_eq_of_le_mul_two <;> omega

theorem toSize_of_lt {n : ℕ} (h : n < 2 ^ 31) : toSize n = n := by
  rw [toSize]
  omega

theorem sizeSub_of_le {a b : ℕ} (h : b ≤ a) (ha : a < 2 ^ 31) : sizeSub a b = a - b := by
  rw [sizeSub, ← Int.ofNat_sub h]
  exact toSize_of_lt (by omega)

section
variable {options : Options} {block : Block}

theorem mul_size_lt (hs : 1 ≤ options.maxSegmentSize) {k : ℕ}
    (hk : k < segments options.maxSegmentSize block) :
    k * options.maxSegmentSize < block.wire.length := by
  have hpos := block.wire_length_pos
  have hle : k ≤ (block.wire.length - 1) / options.maxSegmentSize := Nat.lt_succ_iff.mp hk
  have := (Nat.le_div_iff_mul_le hs).mp hle
  omega

theorem length_le_segments_mul (hs : 1 ≤ options.maxSegmentSize) :
    block.wire.length ≤ segments options.maxSegmentSize block * options.maxSegmentSize := by
  have hlt := Nat.lt_mul_div_succ (block.wire.length - 1) hs
  rw [segments, Nat.mul_comm]
  omega

theorem segments_lt (hb : block.wire.length < 2 ^ 31) :
    segments options.maxSegmentSize block < 2 ^ 31 := by
  have hpos := block.wire_length_pos
  have := Nat.div_le_self (block.wire.length - 1) options.maxSegmentSize
  rw [segments]
  omega

theorem total_eq (hb : block.wire.length < 2 ^ 31) :
    total options block = segments options.maxSegmentSize block := by
  rw [total, sizeSub_of_le block.wire_length_pos hb]
  exact toInt_of_lt (segments_lt hb)

theorem copied_eq (hs : 1 ≤ options.maxSegmentSize) (hs' : options.maxSegmentSize < 2 ^ 31)
    (hb : block.wire.length < 2 ^ 31) {k : ℕ} (hk : k < segments options.maxSegmentSize block) :
    copied options block k = chunk options.maxSegmentSize block.wire k := by
  have hmul := mul_size_lt hs hk
  have hsegments := @segments_lt options block hb
  have hoffset : copyOffset options k = (k * options.maxSegmentSize : ℕ) := by
    rw [copyOffset, toSize_of_lt (by omega), Nat.mod_eq_of_lt (by omega)]
    exact toInt_of_lt (by omega)
  have hrest : sizeSub block.wire.length (toSize (k * options.maxSegmentSize : ℕ)) =
      block.wire.length - k * options.maxSegmentSize := by
    rw [toSize_of_lt (by omega), sizeSub_of_le hmul.le hb]
  have hsize : copySize options block (k * options.maxSegmentSize : ℕ) =
      (min options.maxSegmentSize (block.wire.length - k * options.maxSegmentSize) : ℕ) := by
    rw [copySize, hrest]
    split_ifs with hlt
    · rw [Nat.min_eq_left hlt.le]
      exact toInt_of_lt hs'
    · rw [Nat.min_eq_right (Nat.not_lt.mp hlt)]
      exact toInt_of_lt (by omega)
  simp only [copied, hoffset, hsize, Int.toNat_natCast, chunk]
  rw [← List.length_drop, ← List.take_eq_take_min]

theorem populate_eq (versionedPrefix : Name) (turns count : ℕ) (store : List Packet) :
    populate options versionedPrefix block turns count store =
      store ++ (List.range turns).map fun k => {
        name := versionedPrefix ++ [fromSegment (store.length + k)]
        content := ⟨tlvContent, copied options block (count + k : ℕ), tlvContent_pos,
          tlvContent_lt⟩ } := by
  induction turns generalizing count store with
  | zero => simp [populate]
  | succ turns ih =>
      have hcount : ((count : ℤ) + 1) = ((count + 1 : ℕ) : ℤ) := by simp
      rw [populate, hcount, ih, List.range_succ_eq_map, List.map_cons, List.map_map]
      simp only [List.append_assoc, List.singleton_append, List.length_append, List.length_cons,
        List.length_nil, Nat.zero_add, Nat.add_zero, Function.comp_def, Nat.succ_eq_add_one,
        Nat.add_assoc, Nat.add_comm 1]

/-- The segments are the chunks of the wire, numbered from zero. -/
theorem populateStore_eq (versionedPrefix : Name) (hs : 1 ≤ options.maxSegmentSize)
    (hs' : options.maxSegmentSize < 2 ^ 31) (hb : block.wire.length < 2 ^ 31) :
    let n := segments options.maxSegmentSize block
    populateStore options versionedPrefix block = (List.range n).map fun k =>
      segment versionedPrefix n (chunk options.maxSegmentSize block.wire k) k := by
  intro n
  have hloop : populate options versionedPrefix block (total options block).toNat 0 [] =
      (List.range n).map fun k => {
        name := versionedPrefix ++ [fromSegment k]
        content := ⟨tlvContent, chunk options.maxSegmentSize block.wire k, tlvContent_pos,
          tlvContent_lt⟩ } := by
    have hrun := @populate_eq options block versionedPrefix n 0 []
    rw [List.nil_append] at hrun
    rw [total_eq hb, Int.toNat_natCast]
    refine hrun.trans ?_
    apply List.map_congr_left
    intro k hk
    simp only [List.length_nil, Nat.zero_add, copied_eq hs hs' hb (List.mem_range.mp hk)]
  have hne : ((List.range n).map fun k => ({
      name := versionedPrefix ++ [fromSegment k]
      content := ⟨tlvContent, chunk options.maxSegmentSize block.wire k, tlvContent_pos,
        tlvContent_lt⟩ } : Packet)).isEmpty = false := by
    have hn : n ≠ 0 := Nat.succ_ne_zero _
    simp [hn]
  simp only [populateStore, hloop, hne, Bool.false_eq_true, if_false, List.map_map, List.length_map,
    List.length_range]
  rfl

end
end CertLedger.SegmentProducer
