import Mathlib.Data.String.Basic
import Mathlib.Tactic.IntervalCases
import Mathlib.Tactic.SplitIfs

/-!
# Texts by their bytes

Texts are compared character by character. Comparing their bytes gives the same order: a character
that comes first has a first byte with a smaller mark, or as many bytes and smaller digits in base
64, most significant ones first (`bytes_lt_bytes`).
-/

namespace WellSorted.Utf8

/-- Whether bytes come before others, whatever follows them. -/
def Below (xs ys : List UInt8) : Prop := ∀ u v, xs ++ u < ys ++ v

theorem below_cons {x y : UInt8} (h : x < y) (xs ys : List UInt8) : Below (x :: xs) (y :: ys) :=
  fun _ _ => List.cons_lt_cons_iff.mpr (.inl h)

theorem Below.cons {xs ys : List UInt8} (h : Below xs ys) (x : UInt8) : Below (x :: xs) (x :: ys) :=
  fun u v => List.cons_lt_cons_iff.mpr (.inr ⟨rfl, h u v⟩)

theorem ofNat_lt_ofNat {m n : Nat} (h : m < n) (hn : n < 256) : UInt8.ofNat m < UInt8.ofNat n := by
  rw [UInt8.lt_iff_toNat_lt, UInt8.toNat_ofNat', UInt8.toNat_ofNat']
  omega

/-- The last `k` digits of a number in base 64, as the bytes that continue a character. -/
def trail : Nat → Nat → List UInt8
  | 0, _ => []
  | k + 1, m => UInt8.ofNat (m / 64 ^ k % 64 + 128) :: trail k m

theorem below_trail {k m n : Nat} (hk : m / 64 ^ k = n / 64 ^ k) (h : m < n) :
    Below (trail k m) (trail k n) := by
  induction k with
  | zero =>
    rw [Nat.pow_zero, Nat.div_one, Nat.div_one] at hk
    exact absurd hk h.ne
  | succ k ih =>
    rw [Nat.pow_succ, ← Nat.div_div_eq_div_mul, ← Nat.div_div_eq_div_mul] at hk
    -- The digits differ here, or further down.
    rcases Nat.lt_or_ge (m / 64 ^ k) (n / 64 ^ k) with hlt | hge
    · exact below_cons (ofNat_lt_ofNat (by omega) (by omega)) _ _
    · have heq := Nat.le_antisymm (Nat.div_le_div_right h.le) hge
      rw [trail, trail, heq]
      exact (ih heq).cons _

/-- How many values the first byte has room for if `k` bytes continue it. -/
def room : Nat → Nat
  | 0 => 128
  | 1 => 32
  | 2 => 16
  | _ => 8

/-- What is added to the first byte to tell how many continue it. -/
def mark : Nat → Nat
  | 0 => 0
  | 1 => 192
  | 2 => 224
  | _ => 240

def marked (k m : Nat) : List UInt8 := UInt8.ofNat (m / 64 ^ k % room k + mark k) :: trail k m

theorem room_add_mark_le {j k : Nat} (hk : k ≤ 3) (h : j < k) : room j + mark j ≤ mark k := by
  revert j
  revert k
  decide

theorem room_add_mark_le_256 (k : Nat) : room k + mark k ≤ 256 := by
  unfold room mark
  split <;> decide

/-- A character has as many bytes as it needs. -/
theorem exists_marked (c : Char) : ∃ k ≤ 3, String.utf8EncodeChar c = marked k c.val.toNat ∧
    c.val.toNat / 64 ^ k < room k ∧ ∀ j < k, room j ≤ c.val.toNat / 64 ^ j := by
  have hvalid : c.val.toNat < 1114112 := by
    have hvalid := c.valid
    simp only [UInt32.isValidChar, Nat.isValidChar] at hvalid
    omega
  rw [String.utf8EncodeChar.eq_1]
  generalize c.val.toNat = m at *
  split_ifs with h₀ h₁ h₂
  · refine ⟨0, by decide, ?_, by simp [room]; omega, by simp⟩
    simp only [marked, trail, room, mark, Nat.pow_zero, Nat.div_one]
    rw [Nat.mod_eq_of_lt (by omega), Nat.add_zero]
  · refine ⟨1, by decide, by simp [marked, trail, room, mark], by simp [room]; omega, ?_⟩
    intro j hj
    interval_cases j
    simp [room]; omega
  · refine ⟨2, by decide, by simp [marked, trail, room, mark], by simp [room]; omega, ?_⟩
    intro j hj
    interval_cases j <;> simp [room] <;> omega
  · refine ⟨3, by decide, by simp [marked, trail, room, mark], by simp [room]; omega, ?_⟩
    intro j hj
    interval_cases j <;> simp [room] <;> omega

/-- The bytes of characters are ordered like the characters. -/
theorem below_utf8EncodeChar {c d : Char} (h : c < d) :
    Below (String.utf8EncodeChar c) (String.utf8EncodeChar d) := by
  have hlt : c.val.toNat < d.val.toNat := h
  obtain ⟨k, hk, hc, hroom, hleast⟩ := exists_marked c
  obtain ⟨l, hl, hd, hroom', hleast'⟩ := exists_marked d
  rw [hc, hd]
  generalize c.val.toNat = m at *
  generalize d.val.toNat = n at *
  have hle (j : Nat) : m / 64 ^ j ≤ n / 64 ^ j := Nat.div_le_div_right hlt.le
  have hbound := room_add_mark_le_256 l
  rw [marked, marked, Nat.mod_eq_of_lt hroom, Nat.mod_eq_of_lt hroom']
  rcases lt_trichotomy k l with hkl | rfl | hlk
  · have hmark := room_add_mark_le hl hkl
    have hfirst : m / 64 ^ k + mark k < mark l := by omega
    exact below_cons (ofNat_lt_ofNat (hfirst.trans_le (Nat.le_add_left _ _)) (by omega)) _ _
  · rcases (hle k).lt_or_eq with hfirst | hfirst
    · exact below_cons (ofNat_lt_ofNat (by omega) (by omega)) _ _
    · rw [hfirst]
      exact (below_trail hfirst hlt).cons _
  · exact absurd (hleast l hlk) (Nat.not_le.mpr ((hle l).trans_lt hroom'))

theorem flatMap_utf8EncodeChar_lt {cs ds : List Char} (h : cs < ds) :
    cs.flatMap String.utf8EncodeChar < ds.flatMap String.utf8EncodeChar := by
  have hlex : List.Lex (· < ·) cs ds := h
  induction hlex with
  | @nil d ds =>
    obtain ⟨b, bs, hbytes⟩ := List.exists_cons_of_ne_nil (String.utf8EncodeChar_ne_nil (c := d))
    rw [List.flatMap_cons, hbytes]
    exact List.nil_lt_cons b _
  | rel hcd => exact below_utf8EncodeChar hcd _ _
  | cons hrest ih =>
    rw [List.flatMap_cons, List.flatMap_cons]
    exact List.append_left_lt (ih hrest)

/-- The bytes of a text. -/
def bytes (s : String) : List UInt8 := s.toUTF8.data.toList

theorem bytes_eq_flatMap (s : String) : bytes s = s.toList.flatMap String.utf8EncodeChar := by
  have hencoded := String.toByteArray_ofList (l := s.toList)
  rw [String.ofList_toList] at hencoded
  rw [bytes, String.toUTF8_eq_toByteArray, hencoded, List.utf8Encode, List.toList_data_toByteArray]

theorem bytes_lt_bytes {s t : String} (h : s < t) : bytes s < bytes t := by
  rw [bytes_eq_flatMap, bytes_eq_flatMap]
  exact flatMap_utf8EncodeChar_lt (String.lt_iff_toList_lt.mp h)

end WellSorted.Utf8
