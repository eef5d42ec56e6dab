import Mathlib.Data.List.Basic
import Mathlib.Tactic.Ring

set_option autoImplicit false

/-! # Little-endian integers and bounded reads

`toLittleEndian w n` is the `w`-byte object representation of `n` on a little-endian machine (higher
bits are cut off), `ofLittleEndian` reads one back. A reader is represented by the unread rest of
its file: `readBytes` and `readLittleEndian` return `none` as soon as a read would pass the end. -/

namespace Bytes

/-- The low `w` bytes of `n`, least significant first. -/
def toLittleEndian : Nat → Nat → List UInt8
  | 0, _ => []
  | w + 1, n => UInt8.ofNat n :: toLittleEndian w (n / 256)

/-- The number a little-endian byte string stands for. -/
def ofLittleEndian : List UInt8 → Nat
  | [] => 0
  | b :: bs => b.toNat + 256 * ofLittleEndian bs

@[simp] theorem length_toLittleEndian (w n : Nat) : (toLittleEndian w n).length = w := by
  induction w generalizing n with
  | zero => rfl
  | succ w ih => simp [toLittleEndian, ih]

theorem ofLittleEndian_toLittleEndian (w n : Nat) :
    ofLittleEndian (toLittleEndian w n) = n % 256 ^ w := by
  induction w generalizing n with
  | zero => simp [toLittleEndian, ofLittleEndian, Nat.mod_one]
  | succ w ih =>
    have hbyte : (UInt8.ofNat n).toNat = n % 256 := UInt8.toNat_ofNat'
    rw [toLittleEndian, ofLittleEndian, ih, hbyte, pow_succ', Nat.mod_mul]

theorem ofLittleEndian_toLittleEndian_of_lt {w n : Nat} (h : n < 256 ^ w) :
    ofLittleEndian (toLittleEndian w n) = n := by
  rw [ofLittleEndian_toLittleEndian, Nat.mod_eq_of_lt h]

theorem toLittleEndian_ofLittleEndian (bs : List UInt8) :
    toLittleEndian bs.length (ofLittleEndian bs) = bs := by
  induction bs with
  | nil => rfl
  | cons b bs ih =>
    have hb : b.toNat < 256 := b.toNat_lt
    have hdiv : (b.toNat + 256 * ofLittleEndian bs) / 256 = ofLittleEndian bs := by omega
    have hhead : UInt8.ofNat (b.toNat + 256 * ofLittleEndian bs) = b := by
      apply UInt8.toNat_inj.1
      rw [UInt8.toNat_ofNat']
      omega
    simp only [List.length_cons, ofLittleEndian, toLittleEndian, hdiv, hhead, ih]

/-! ## Bounded reads -/

/-- The next `n` bytes and what follows them; `none` past the end of the file. -/
def readBytes (n : Nat) (bs : List UInt8) : Option (List UInt8 × List UInt8) :=
  if n ≤ bs.length then some (bs.take n, bs.drop n) else none

/-- The next `w` bytes as a little-endian integer. -/
def readLittleEndian (w : Nat) (bs : List UInt8) : Option (Nat × List UInt8) :=
  (readBytes w bs).map (fun r => (ofLittleEndian r.1, r.2))

@[simp] theorem readBytes_append (xs ys : List UInt8) :
    readBytes xs.length (xs ++ ys) = some (xs, ys) := by
  simp [readBytes]

theorem readBytes_append_of_length {n : Nat} {xs : List UInt8} (h : xs.length = n)
    (ys : List UInt8) : readBytes n (xs ++ ys) = some (xs, ys) := by
  subst h; exact readBytes_append xs ys

theorem readBytes_eq_some {n : Nat} {bs xs ys : List UInt8} :
    readBytes n bs = some (xs, ys) ↔ bs = xs ++ ys ∧ xs.length = n := by
  constructor
  · intro h
    simp only [readBytes] at h
    split at h
    · next hle =>
      simp only [Option.some.injEq, Prod.mk.injEq] at h
      obtain ⟨rfl, rfl⟩ := h
      exact ⟨(List.take_append_drop n bs).symm, by simpa using hle⟩
    · exact absurd h (by simp)
  · rintro ⟨rfl, rfl⟩
    exact readBytes_append xs ys

/-- A read in bounds is the same in a longer file. -/
theorem readBytes_longer {n : Nat} {bs xs ys : List UInt8} (h : readBytes n bs = some (xs, ys))
    (tail : List UInt8) : readBytes n (bs ++ tail) = some (xs, ys ++ tail) := by
  obtain ⟨rfl, rfl⟩ := readBytes_eq_some.1 h
  rw [List.append_assoc, readBytes_append]

theorem readLittleEndian_longer {w n : Nat} {bs ys : List UInt8}
    (h : readLittleEndian w bs = some (n, ys)) (tail : List UInt8) :
    readLittleEndian w (bs ++ tail) = some (n, ys ++ tail) := by
  simp only [readLittleEndian, Option.map_eq_some_iff, Prod.exists, Prod.mk.injEq] at h ⊢
  obtain ⟨xs, rest, hread, hvalue, rfl⟩ := h
  exact ⟨xs, rest ++ tail, readBytes_longer hread tail, hvalue, rfl⟩

theorem readLittleEndian_append {w n : Nat} (h : n < 256 ^ w) (ys : List UInt8) :
    readLittleEndian w (toLittleEndian w n ++ ys) = some (n, ys) := by
  simp [readLittleEndian, readBytes_append_of_length (length_toLittleEndian w n),
    ofLittleEndian_toLittleEndian_of_lt h]

/-- What was read determines the bytes it was read from. -/
theorem readLittleEndian_eq_some {w n : Nat} {bs ys : List UInt8}
    (h : readLittleEndian w bs = some (n, ys)) : bs = toLittleEndian w n ++ ys := by
  simp only [readLittleEndian, Option.map_eq_some_iff, Prod.exists, Prod.mk.injEq] at h
  obtain ⟨xs, ys', hread, rfl, rfl⟩ := h
  obtain ⟨rfl, rfl⟩ := readBytes_eq_some.1 hread
  rw [toLittleEndian_ofLittleEndian]

theorem ofLittleEndian_lt (bs : List UInt8) : ofLittleEndian bs < 256 ^ bs.length := by
  induction bs with
  | nil => simp [ofLittleEndian]
  | cons b bs ih =>
    have hb : b.toNat < 256 := b.toNat_lt
    rw [ofLittleEndian, List.length_cons, pow_succ]
    omega

theorem readLittleEndian_lt {w n : Nat} {bs ys : List UInt8}
    (h : readLittleEndian w bs = some (n, ys)) : n < 256 ^ w := by
  simp only [readLittleEndian, Option.map_eq_some_iff, Prod.exists, Prod.mk.injEq] at h
  obtain ⟨xs, ys', hread, rfl, rfl⟩ := h
  rw [← (readBytes_eq_some.1 hread).2]
  exact ofLittleEndian_lt xs

end Bytes
