import BrainMachine.HoleListSteps
import BrainMachine.Rejections

set_option autoImplicit false

namespace BrainMachine.StackImages
open Codec Computations Paging AddressSpace Transparency Instructions References
open Footprints ProcessImages Rejections HoleList

theorem word2int_digits {n : ℤ} (h0 : 0 ≤ n) (hn : n < 10000) : word2int (int2word n) = n := by
  obtain ⟨k, rfl⟩ := Int.eq_ofNat_of_zero_le h0
  rw [word2int_int2word]
  omega

theorem word2int_lt (w : Word) : word2int w < 10000 := by
  have := word2int_bounds w
  omega

theorem ofInt_le_base {n : ℤ} (h0 : 0 ≤ n) (hn : n < 10000) (b : UInt32) :
    UInt32.ofInt n ≤ b ↔ n ≤ b.toNat := by
  rw [UInt32.le_iff_toNat_le, ofInt_toNat h0 (by omega)]
  omega

theorem ofInt_lt_base {n : ℤ} (h0 : 0 ≤ n) (hn : n < 10000) {b : UInt32} (hb : b.toNat < 10000) :
    UInt32.ofInt n < b + 1 ↔ n < b.toNat + 1 := by
  rw [UInt32.lt_iff_toNat_lt, ofInt_toNat h0 (by omega), toNat_add_one (by omega)]
  omega

section
variable {c : Image} {n : ℤ}

theorem pushWord_eq (hsp : word2int c.regs.sp = n) (h0 : 0 ≤ n) (hl : n + 1 ≤ c.limit) :
    pushWord c = some { c with
      regs := { c.regs with sp := int2word (n + 1) }
      words := Function.update c.words (n + 1).toNat c.regs.r } := by
  rw [pushWord, hsp]
  refine (if_neg (by omega)).trans ?_
  exact if_pos ⟨by omega, hl⟩

theorem popWord_empty (hsp : word2int c.regs.sp = n) (h0 : 0 ≤ n)
    (hb : n ≤ c.regs.stackBase.toNat) : popWord c = some c := by
  have hn := word2int_lt c.regs.sp
  rw [popWord, hsp]
  exact if_pos ((ofInt_le_base h0 (by omega) _).2 hb)

theorem popWord_eq (hsp : word2int c.regs.sp = n) (hb : c.regs.stackBase.toNat < n)
    (hl : n ≤ c.limit) :
    popWord c = some { c with
      regs := { c.regs with r := c.words n.toNat, sp := int2word (n - 1) } } := by
  have hn := word2int_lt c.regs.sp
  have below : ¬UInt32.ofInt n ≤ c.regs.stackBase := fun h =>
    absurd ((ofInt_le_base (by omega) (by omega) _).1 h) (by omega)
  rw [popWord, hsp]
  refine (if_neg below).trans ?_
  rw [Image.get, if_pos ⟨by omega, hl⟩]
  rfl

theorem stackWords_empty (op : Char) (hsp : word2int c.regs.sp = n) (h0 : 0 ≤ n)
    (hb : n ≤ c.regs.stackBase.toNat) (hd : c.regs.stackBase.toNat < 10000) :
    stackWords op c = none := by
  have hn := word2int_lt c.regs.sp
  rw [stackWords, hsp]
  exact if_pos ((ofInt_lt_base h0 (by omega) hd).2 (by omega))

theorem stackWords_eq (op : Char) (hsp : word2int c.regs.sp = n)
    (hb : c.regs.stackBase.toNat < n) (hl : n ≤ c.limit) :
    stackWords op c =
      if doBinop (c.words (n - 1).toNat) (c.words n.toNat) op < 0 then none
      else some { c with
        regs := { c.regs with sp := int2word (n - 1) }
        words := Function.update c.words (n - 1).toNat
          (int2word (doBinop (c.words (n - 1).toNat) (c.words n.toNat) op)) } := by
  have hn := word2int_lt c.regs.sp
  have above : ¬UInt32.ofInt n < c.regs.stackBase + 1 := fun h =>
    absurd ((ofInt_lt_base (by omega) (by omega) (by omega)).1 h) (by omega)
  rw [stackWords, hsp]
  refine (if_neg above).trans ?_
  rw [Image.get, if_pos ⟨by omega, hl⟩, Image.get, if_pos ⟨by omega, by omega⟩]
  change (if doBinop (c.words (n - 1).toNat) (c.words n.toNat) op < 0 then none else _) = _
  split
  · rfl
  · exact if_pos ⟨by omega, by change n - 1 ≤ c.limit; omega⟩

end
end BrainMachine.StackImages
