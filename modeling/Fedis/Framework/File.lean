import Fedis.Framework.Libc

/-!
# Files of bytes

A file that is read: its bytes and the position in it. Numbers stand in a file
with their low byte first.

* `fread_fileAt`: what stands at the position is read, and the position is behind
  it;
* `ReadsBack.unique`: what is read back is no prefix of anything else that is;
* `leVal_leBytes`, `signed_leInt`: reading back a number that was written.
-/

namespace Fedis.Framework

structure File where
  data : Bytes
  pos : Nat
deriving DecidableEq, Repr

/-- `fread` of `n` bytes, or of those that are left. -/
def fread (fp : File) (n : Nat) : Bytes × File :=
  let bs := (fp.data.drop fp.pos).take n
  (bs, { fp with pos := fp.pos + bs.length })

/-- `fread` into a variable of `n` bytes that is used: it has to be filled. -/
def freadItem (fp : File) (n : Nat) : Except Fault (Bytes × File) :=
  let r := fread fp n
  if r.1.length = n then .ok r else .error .undefined

/-- The file that was read up to the bytes `t`. -/
def fileAt (a t : Bytes) : File := { data := a ++ t, pos := a.length }

theorem fread_fileAt (a bs t : Bytes) :
    fread (fileAt a (bs ++ t)) bs.length = (bs, fileAt (a ++ bs) t) := by
  simp [fread, fileAt]

theorem freadItem_fileAt {n : Nat} (a bs t : Bytes) (h : bs.length = n) :
    freadItem (fileAt a (bs ++ t)) n = .ok (bs, fileAt (a ++ bs) t) := by
  rw [freadItem, ← h, fread_fileAt, if_pos rfl]

/-- The reader takes what was written, whatever stands behind it, and no more. -/
def ReadsBack {α : Type*} (load : File → α × File) (x : α) (bs : Bytes) : Prop :=
  ∀ a t, load (fileAt a (bs ++ t)) = (x, fileAt (a ++ bs) t)

theorem ReadsBack.unique {α : Type*} {load : File → α × File} {x y : α} {bs cs : Bytes}
    (hx : ReadsBack load x bs) (hy : ReadsBack load y cs) (h : bs <+: cs) : x = y := by
  obtain ⟨t, rfl⟩ := h
  have hread := hy [] []
  rw [List.append_nil, hx [] t] at hread
  exact congrArg Prod.fst hread

/-! ## Numbers -/

/-- The low `k` bytes of a number, the lowest first. -/
def leBytes : Nat → Nat → Bytes
  | 0, _ => []
  | k + 1, n => UInt8.ofNat n :: leBytes k (n / 256)

def leVal : Bytes → Nat
  | [] => 0
  | b :: bs => b.toNat + 256 * leVal bs

/-- The low `k` bytes of a signed number. -/
def leInt (k : Nat) (z : Int) : Bytes := leBytes k (z % 256 ^ k).toNat

/-- The signed number in all these bytes. -/
def signed (bs : Bytes) : Int := (leVal bs : Int).bmod (256 ^ bs.length)

@[simp] theorem length_leBytes (k n : Nat) : (leBytes k n).length = k := by
  induction k generalizing n with
  | zero => rfl
  | succ k ih => rw [leBytes, List.length_cons, ih]

@[simp] theorem length_leInt (k : Nat) (z : Int) : (leInt k z).length = k := length_leBytes k _

theorem leVal_leBytes (k n : Nat) : leVal (leBytes k n) = n % 256 ^ k := by
  induction k generalizing n with
  | zero => rw [leBytes, leVal, Nat.pow_zero, Nat.mod_one]
  | succ k ih =>
    have hb : (UInt8.ofNat n).toNat = n % 256 := by simp
    rw [leBytes, leVal, ih, hb, Nat.pow_succ, Nat.mul_comm (256 ^ k), Nat.mod_mul]

theorem leVal_leInt (k : Nat) (z : Int) : (leVal (leInt k z) : Int) = z % 256 ^ k := by
  have hpos : (0 : Int) < 256 ^ k := Int.pow_pos (by decide)
  have hge := Int.emod_nonneg z (Int.ne_of_gt hpos)
  have hlt : (z % 256 ^ k).toNat < 256 ^ k := by
    rw [Int.toNat_lt hge]
    exact_mod_cast Int.emod_lt_of_pos z hpos
  rw [leInt, leVal_leBytes, Nat.mod_eq_of_lt hlt, Int.toNat_of_nonneg hge]

/-- Reading back a signed number gives it up to the range of its bytes. -/
theorem signed_leInt (k : Nat) (z : Int) : signed (leInt k z) = z.bmod (256 ^ k) := by
  rw [signed, leVal_leInt, length_leInt]
  exact_mod_cast @Int.emod_bmod z (256 ^ k)

end Fedis.Framework
