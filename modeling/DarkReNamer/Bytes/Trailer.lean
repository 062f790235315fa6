import DarkReNamer.Bytes.Checksum
import DarkReNamer.Bytes.LittleEndian

/-!
# Bytes with their checksum behind them

A record that ends with four bytes of checksum over all that comes before. Where the checksum
notices every change of one byte, two records of the same length never differ in one byte alone,
so no record is damaged into another by a single byte.
-/

namespace Bytes

variable {checksum : List UInt8 → UInt32} {body other bytes : List UInt8}

def withTrailer (checksum : List UInt8 → UInt32) (body : List UInt8) : List UInt8 :=
  body ++ leBytes 4 (checksum body).toNat

/-- The checksum of two inputs that differ in one byte is not the same. -/
def NoticesOneByte (checksum : List UInt8 → UInt32) : Prop :=
  ∀ (before after : List UInt8) (x y : UInt8), x ≠ y →
    checksum (before ++ x :: after) ≠ checksum (before ++ y :: after)

@[simp] theorem length_withTrailer (checksum : List UInt8 → UInt32) (body : List UInt8) :
    (withTrailer checksum body).length = body.length + 4 := by
  rw [withTrailer, List.length_append, length_leBytes]

theorem leBytes_checksum_inj {a b : UInt32} (h : leBytes 4 a.toNat = leBytes 4 b.toNat) : a = b :=
  UInt32.toNat_inj.1 (leBytes_injective a.toNat_lt b.toNat_lt h)

theorem take_withTrailer (checksum : List UInt8 → UInt32) (body : List UInt8) :
    (withTrailer checksum body).take body.length = body := by
  rw [withTrailer, List.take_left]

/-- The bytes are a record exactly when the last four are the checksum of the others. -/
theorem eq_withTrailer_iff {n : ℕ} (hlength : bytes.length = n + 4) :
    bytes = withTrailer checksum (bytes.take n) ↔
      readLe (bytes.drop n) = (checksum (bytes.take n)).toNat := by
  have hdrop : (bytes.drop n).length = 4 := by
    rw [List.length_drop]
    omega
  rw [withTrailer, ← eq_leBytes_iff (checksum (bytes.take n)).toNat_lt hdrop]
  constructor
  · intro h
    have htake : (bytes.take n).length = n := List.length_take_of_le (by omega)
    have hback := congrArg (List.drop n) h
    rwa [List.drop_left' htake] at hback
  · intro h
    rw [← h, List.take_append_drop]

/-! ### Fields -/

theorem take_eq_append_iff {front back : List UInt8} {m n : ℕ} (hfront : front.length = m)
    (hm : m ≤ n) (hn : n ≤ bytes.length) :
    bytes.take n = front ++ back ↔ bytes.take m = front ∧ bytes.extract m n = back := by
  have hsplit : bytes.take n = bytes.take m ++ bytes.extract m n := by
    rw [List.extract_eq_take_drop, ← List.take_add, Nat.add_sub_cancel' hm]
  rw [hsplit]
  constructor
  · intro h
    exact List.append_inj h (by rw [List.length_take_of_le (by omega), hfront])
  · rintro ⟨rfl, rfl⟩
    rfl

theorem extract_eq_cons_iff {byte : UInt8} {rest : List UInt8} {m n : ℕ} (hm : m < n)
    (hn : n ≤ bytes.length) :
    bytes.extract m n = byte :: rest ↔
      bytes.getD m 0 = byte ∧ bytes.extract (m + 1) n = rest := by
  have hin : m < bytes.length := Nat.lt_of_lt_of_le hm hn
  obtain ⟨k, rfl⟩ := Nat.exists_eq_add_of_lt hm
  rw [List.extract_eq_take_drop, List.extract_eq_take_drop, List.drop_eq_getElem_cons hin,
    List.getD_eq_getElem _ _ hin, show m + k + 1 - m = k + 1 by omega,
    show m + k + 1 - (m + 1) = k by omega, List.take_succ_cons, List.cons.injEq]

/-- A record is told by its length, its header, its payload and its checksum. -/
theorem eq_withTrailer_append_iff {header payload : List UInt8} {m n : ℕ}
    (hheader : header.length = m) (hpayload : payload.length = n) :
    bytes = withTrailer checksum (header ++ payload) ↔
      bytes.length = m + n + 4 ∧ bytes.take m = header ∧ bytes.extract m (m + n) = payload ∧
        (checksum (bytes.take (m + n))).toNat = readLe (bytes.drop (m + n)) := by
  have hbody : (header ++ payload).length = m + n := by
    rw [List.length_append, hheader, hpayload]
  constructor
  · intro h
    have hlength : bytes.length = m + n + 4 := by rw [h, length_withTrailer, hbody]
    have htake : bytes.take (m + n) = header ++ payload := by
      rw [h, ← hbody, take_withTrailer]
    obtain ⟨hfront, hback⟩ :=
      (take_eq_append_iff hheader (Nat.le_add_right m n) (by omega)).1 htake
    refine ⟨hlength, hfront, hback, ((eq_withTrailer_iff hlength).1 ?_).symm⟩
    rw [htake]
    exact h
  · rintro ⟨hlength, hfront, hback, hsum⟩
    have htake := (take_eq_append_iff hheader (Nat.le_add_right m n) (by omega)).2 ⟨hfront, hback⟩
    rw [← htake]
    exact (eq_withTrailer_iff hlength).2 hsum.symm

/-! ### Damage -/

/-- A record with another byte somewhere is no record. -/
theorem withTrailer_set_ne (hnotices : NoticesOneByte checksum) {i : ℕ} {x : UInt8}
    (hlength : body.length = other.length) (hi : i < (withTrailer checksum body).length)
    (hx : (withTrailer checksum body).getD i 0 ≠ x) :
    (withTrailer checksum body).set i x ≠ withTrailer checksum other := by
  intro h
  rcases Nat.lt_or_ge i body.length with hin | hout
  · -- The change is in what the checksum covers, and the checksums are the same.
    rw [withTrailer, List.set_append_left _ _ hin, withTrailer] at h
    obtain ⟨hbody, hsum⟩ := List.append_inj h (by rw [List.length_set, hlength])
    have hx' : body[i] ≠ x := by
      rwa [withTrailer, List.getD_eq_getElem _ _ (by simpa using Nat.lt_add_right 4 hin),
        List.getElem_append_left hin] at hx
    have hsplit : body = body.take i ++ body[i] :: body.drop (i + 1) := by
      rw [← List.drop_eq_getElem_cons hin, List.take_append_drop]
    have hsplit' : other = body.take i ++ x :: body.drop (i + 1) := by
      rw [← hbody, List.set_eq_take_append_cons_drop, if_pos hin]
    refine hnotices (body.take i) (body.drop (i + 1)) _ _ hx' ?_
    rw [← hsplit, ← hsplit']
    exact leBytes_checksum_inj hsum
  · -- The change is in the checksum, and what it covers is the same.
    rw [withTrailer, List.set_append_right _ _ hout, withTrailer] at h
    obtain ⟨hbody, hsum⟩ := List.append_inj h hlength
    rw [length_withTrailer] at hi
    have hat := congrArg (fun l => l.getD (i - body.length) 0) hsum
    simp only [List.getD_eq_getElem?_getD, List.getElem?_set_self (length_leBytes 4 _ ▸
      (by omega : i - body.length < 4))] at hat
    rw [withTrailer, List.getD_append_right _ _ _ _ hout, List.getD_eq_getElem?_getD] at hx
    rw [← hbody] at hat
    exact hx hat.symm

end Bytes
