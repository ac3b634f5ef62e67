/-
# Memory of bytes

Words of 64 bits are read and written byte by byte, the lowest byte first; an array of bits
packs eight of them into a byte.  `OnlyWrites s m m'` says that a computation has changed the
memory only inside a span, so that everything stored outside of it is still there.
-/
import Northport.Lib.Span

namespace Northport.Lib

open Function List Nat

abbrev ByteMem := ℕ → BitVec 8

namespace ByteMem

/-- The number in `n` bytes from the address `a` on. -/
def readBytes (m : ByteMem) (a : ℕ) : ℕ → ℕ
  | 0 => 0
  | n + 1 => readBytes m a n + 256 ^ n * (m (a + n)).toNat

def read64 (m : ByteMem) (a : ℕ) : ℕ := m.readBytes a 8

def write64 (m : ByteMem) (a v : ℕ) : ByteMem :=
  fun x => if a ≤ x ∧ x < a + 8 then BitVec.ofNat 8 (v / 256 ^ (x - a)) else m x

/-- `n` bytes are set to zero. -/
def zero (m : ByteMem) (a n : ℕ) : ByteMem := fun x => if a ≤ x ∧ x < a + n then 0#8 else m x

/-- The bytes of a list, one after the other. -/
def writeList (m : ByteMem) (a : ℕ) (bytes : List (BitVec 8)) : ByteMem := fun x =>
  if a ≤ x ∧ x < a + bytes.length then bytes.getD (x - a) 0#8 else m x

/-- The bit `i` of the array of bits at the address `a`. -/
def getBit (m : ByteMem) (a i : ℕ) : Bool := m (a + i / 8) &&& 1#8 <<< (i % 8) ≠ 0#8

def setBit (m : ByteMem) (a i : ℕ) : ByteMem :=
  update m (a + i / 8) (m (a + i / 8) ||| 1#8 <<< (i % 8))

def clearBit (m : ByteMem) (a i : ℕ) : ByteMem :=
  update m (a + i / 8) (m (a + i / 8) &&& ~~~(1#8 <<< (i % 8)))

variable {m m' m'' : ByteMem} {a b n v i j : ℕ}

/-! ### Lists of bytes -/

@[simp] lemma writeList_nil (m : ByteMem) (a : ℕ) : m.writeList a [] = m := by
  funext x
  exact if_neg (by simp)

/-- The bytes are written one after the other. -/
lemma writeList_cons (m : ByteMem) (a : ℕ) (y : BitVec 8) (bytes : List (BitVec 8)) :
    m.writeList a (y :: bytes) = writeList (update m a y) (a + 1) bytes := by
  funext x
  rcases lt_trichotomy x a with hx | rfl | hx
  · rw [writeList, writeList, if_neg (by omega), if_neg (by omega), update_of_ne hx.ne]
  · rw [writeList, writeList, if_pos (by simp), if_neg (by omega), update_self,
      Nat.sub_self, getD_cons_zero]
  · obtain ⟨k, rfl⟩ : ∃ k, x = a + 1 + k := ⟨x - (a + 1), by omega⟩
    have h1 : a + 1 + k - a = k + 1 := by omega
    have h2 : a + 1 + k - (a + 1) = k := by omega
    have hiff : (a ≤ a + 1 + k ∧ a + 1 + k < a + (y :: bytes).length) ↔
        (a + 1 ≤ a + 1 + k ∧ a + 1 + k < a + 1 + bytes.length) := by
      rw [length_cons]
      omega
    simp only [writeList, hiff, h1, h2, getD_cons_succ, update_of_ne hx.ne']

/-! ### Words -/

lemma readBytes_congr (h : ∀ x, a ≤ x → x < a + n → m' x = m x) :
    m'.readBytes a n = m.readBytes a n := by
  induction n with
  | zero => rfl
  | succ n ih =>
    rw [readBytes, readBytes, ih fun x hx hxn => h x hx (by omega), h (a + n) (by omega) (by omega)]

lemma read64_congr (h : ∀ x, a ≤ x → x < a + 8 → m' x = m x) : m'.read64 a = m.read64 a :=
  readBytes_congr h

/-- The digits of a number give the number back. -/
lemma readBytes_digits (h : ∀ k, k < n → (m (a + k)).toNat = v / 256 ^ k % 256) :
    m.readBytes a n = v % 256 ^ n := by
  induction n with
  | zero => rw [readBytes, pow_zero, mod_one]
  | succ n ih =>
    rw [readBytes, ih fun k hk => h k (by omega), h n (lt_succ_self n), mod_pow_succ]

lemma readBytes_lt (m : ByteMem) (a n : ℕ) : m.readBytes a n < 256 ^ n := by
  induction n with
  | zero => exact one_pos
  | succ n ih =>
    have hbyte : (m (a + n)).toNat ≤ 255 := le_of_lt_succ (m (a + n)).isLt
    have hmul := mul_le_mul_left (256 ^ n) hbyte
    rw [readBytes]
    omega

lemma read64_lt (m : ByteMem) (a : ℕ) : m.read64 a < 2 ^ 64 :=
  (m.readBytes_lt a 8).trans_eq (by decide)

lemma read64_write64 (hv : v < 2 ^ 64) : (m.write64 a v).read64 a = v := by
  rw [read64, readBytes_digits (v := v), mod_eq_of_lt (hv.trans_eq (by decide))]
  intro k hk
  rw [write64, if_pos ⟨by omega, by omega⟩, Nat.add_sub_cancel_left, BitVec.toNat_ofNat]

lemma read64_write64_of_disjoint (h : a + 8 ≤ b ∨ b + 8 ≤ a) :
    (m.write64 a v).read64 b = m.read64 b := by
  refine read64_congr fun x hx hx8 => ?_
  rw [write64, if_neg]
  omega

lemma read64_zero (ha : a ≤ b) (hb : b + 8 ≤ a + n) : (m.zero a n).read64 b = 0 := by
  rw [read64, readBytes_digits (v := 0), zero_mod]
  intro k hk
  rw [zero, if_pos ⟨by omega, by omega⟩]
  simp

/-! ### Changes inside a span -/

/-- The memory is changed only inside the span. -/
def OnlyWrites (s : Span) (m m' : ByteMem) : Prop := ∀ x, ¬ s.Contains x → m' x = m x

namespace OnlyWrites

variable {s t : Span}

lemma refl (s : Span) (m : ByteMem) : OnlyWrites s m m := fun _ _ => rfl

lemma trans (h : OnlyWrites s m m') (h' : OnlyWrites s m' m'') : OnlyWrites s m m'' :=
  fun x hx => (h' x hx).trans (h x hx)

lemma mono (h : OnlyWrites s m m') (hst : ∀ x, s.Contains x → t.Contains x) : OnlyWrites t m m' :=
  fun x hx => h x fun hs => hx (hst x hs)

lemma write64 (ha : s.base ≤ a) (hb : a + 8 ≤ s.base + s.length) :
    OnlyWrites s m (m.write64 a v) := by
  intro x hx
  rw [ByteMem.write64, if_neg]
  simp only [Span.Contains] at hx
  omega

lemma zero (ha : s.base ≤ a) (hb : a + n ≤ s.base + s.length) : OnlyWrites s m (m.zero a n) := by
  intro x hx
  rw [ByteMem.zero, if_neg]
  simp only [Span.Contains] at hx
  omega

lemma update {y : BitVec 8} (ha : s.Contains a) : OnlyWrites s m (update m a y) := by
  intro x hx
  refine update_of_ne ?_ _ _
  rintro rfl
  exact hx ha

end OnlyWrites

/-! ### Bits -/

/-- The mask of one bit. -/
lemma getLsbD_bit {k l : ℕ} (hk : k < 8) : (1#8 <<< k).getLsbD l = decide (l = k) := by
  have h := BitVec.getLsbD_twoPow (w := 8) k l
  simpa [BitVec.twoPow, hk, eq_comm] using h

lemma getBit_eq (m : ByteMem) (a i : ℕ) : m.getBit a i = (m (a + i / 8)).getLsbD (i % 8) := by
  have hmask : 1#8 <<< (i % 8) ≠ 0 := fun h => by
    have hbit := getLsbD_bit (l := i % 8) (mod_lt i (by decide : 0 < 8))
    simp [h] at hbit
  rw [getBit, show 1#8 <<< (i % 8) = BitVec.twoPow 8 (i % 8) from rfl, BitVec.and_twoPow]
  split_ifs with h
  · rw [h]
    exact decide_eq_true hmask
  · simp [h]

/-- Two bits of one array are in one byte at one place only if they are the same. -/
lemma index_eq_iff : (j / 8 = i / 8 ∧ j % 8 = i % 8) ↔ j = i := by omega

lemma getBit_setBit (m : ByteMem) (a i j : ℕ) :
    (m.setBit a i).getBit a j = (m.getBit a j || decide (j = i)) := by
  have hi : i % 8 < 8 := mod_lt _ (by decide)
  rw [getBit_eq, getBit_eq, setBit]
  by_cases h : j / 8 = i / 8
  · rw [h, update_self, BitVec.getLsbD_or, getLsbD_bit hi]
    simp [← index_eq_iff (i := i), h]
  · rw [update_of_ne (by omega)]
    simp [← index_eq_iff (i := i), h]

lemma getBit_clearBit (m : ByteMem) (a i j : ℕ) :
    (m.clearBit a i).getBit a j = (m.getBit a j && !decide (j = i)) := by
  have hi : i % 8 < 8 := mod_lt _ (by decide)
  have hj : j % 8 < 8 := mod_lt _ (by decide)
  rw [getBit_eq, getBit_eq, clearBit]
  by_cases h : j / 8 = i / 8
  · rw [h, update_self, BitVec.getLsbD_and, BitVec.getLsbD_not, getLsbD_bit hi]
    simp [← index_eq_iff (i := i), h, hj]
  · rw [update_of_ne (by omega)]
    simp [← index_eq_iff (i := i), h]

/-- The bits from `i` on, `n` of them, are set. -/
def setBits (m : ByteMem) (a i : ℕ) : ℕ → ByteMem
  | 0 => m
  | n + 1 => setBits (m.setBit a i) a (i + 1) n

/-- The bits from `i` on, `n` of them, are cleared. -/
def clearBits (m : ByteMem) (a i : ℕ) : ℕ → ByteMem
  | 0 => m
  | n + 1 => clearBits (m.clearBit a i) a (i + 1) n

lemma getBit_setBits (m : ByteMem) (a i n j : ℕ) :
    (m.setBits a i n).getBit a j = (m.getBit a j || decide (i ≤ j ∧ j < i + n)) := by
  induction n generalizing m i with
  | zero =>
    have hempty : ¬ (i ≤ j ∧ j < i + 0) := by omega
    rw [setBits, decide_eq_false hempty, Bool.or_false]
  | succ n ih =>
    have hsplit : (i ≤ j ∧ j < i + (n + 1)) ↔ j = i ∨ (i + 1 ≤ j ∧ j < i + 1 + n) := by omega
    rw [setBits, ih, getBit_setBit, Bool.or_assoc, ← Bool.decide_or, decide_eq_decide.mpr hsplit]

lemma getBit_clearBits (m : ByteMem) (a i n j : ℕ) :
    (m.clearBits a i n).getBit a j = (m.getBit a j && !decide (i ≤ j ∧ j < i + n)) := by
  induction n generalizing m i with
  | zero =>
    have hempty : ¬ (i ≤ j ∧ j < i + 0) := by omega
    rw [clearBits, decide_eq_false hempty, Bool.not_false, Bool.and_true]
  | succ n ih =>
    have hsplit : (i ≤ j ∧ j < i + (n + 1)) ↔ j = i ∨ (i + 1 ≤ j ∧ j < i + 1 + n) := by omega
    rw [clearBits, ih, getBit_clearBit, Bool.and_assoc, ← Bool.not_or, ← Bool.decide_or,
      decide_eq_decide.mpr hsplit]

lemma OnlyWrites.setBits {k : ℕ} (m : ByteMem) (h : (i + n + 7) / 8 ≤ k) :
    OnlyWrites ⟨a, k⟩ m (m.setBits a i n) := by
  induction n generalizing m i with
  | zero => exact OnlyWrites.refl _ m
  | succ n ih =>
    have hfirst : OnlyWrites ⟨a, k⟩ m (m.setBit a i) :=
      OnlyWrites.update ⟨by simp, by simp only; omega⟩
    exact hfirst.trans (ih _ (by omega))

lemma OnlyWrites.clearBits {k : ℕ} (m : ByteMem) (h : (i + n + 7) / 8 ≤ k) :
    OnlyWrites ⟨a, k⟩ m (m.clearBits a i n) := by
  induction n generalizing m i with
  | zero => exact OnlyWrites.refl _ m
  | succ n ih =>
    have hfirst : OnlyWrites ⟨a, k⟩ m (m.clearBit a i) :=
      OnlyWrites.update ⟨by simp, by simp only; omega⟩
    exact hfirst.trans (ih _ (by omega))

end ByteMem

end Northport.Lib
