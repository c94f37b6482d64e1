/-!
# Bytes and characters

A text is a list of characters, and offsets in it count the bytes of its UTF-8 form. An offset is a
boundary if it does not lie within a character; only there can a text be split.
-/

namespace WellSorted.Text

/-- The number of bytes that some characters take. -/
def byteLength : List Char → Nat
  | [] => 0
  | c :: cs => c.utf8Size + byteLength cs

/-- The characters of a text that starts at `offset`, each with the offset of its first byte. -/
def charIndices (offset : Nat) : List Char → List (Nat × Char)
  | [] => []
  | c :: cs => (offset, c) :: charIndices (offset + c.utf8Size) cs

/-- The parts of a text before and after a boundary. -/
def splitAt? : Nat → List Char → Option (List Char × List Char)
  | 0, cs => some ([], cs)
  | _ + 1, [] => none
  | n + 1, c :: cs =>
    if c.utf8Size ≤ n + 1 then
      (splitAt? (n + 1 - c.utf8Size) cs).map fun (before, after) => (c :: before, after)
    else none

/-- The part of a text between two boundaries. -/
def slice? (text : List Char) (start stop : Nat) : Option (List Char) := do
  let upToStop ← splitAt? stop text
  let fromStart ← splitAt? start upToStop.1
  return fromStart.2

/-! ### Lengths -/

@[simp] theorem byteLength_nil : byteLength [] = 0 := rfl

@[simp] theorem byteLength_cons (c : Char) (cs : List Char) :
    byteLength (c :: cs) = c.utf8Size + byteLength cs := rfl

@[simp] theorem byteLength_append (cs ds : List Char) :
    byteLength (cs ++ ds) = byteLength cs + byteLength ds := by
  induction cs with
  | nil => rw [List.nil_append, byteLength_nil, Nat.zero_add]
  | cons c cs ih => rw [List.cons_append, byteLength_cons, byteLength_cons, ih, Nat.add_assoc]

theorem charIndices_append (offset : Nat) (cs ds : List Char) :
    charIndices offset (cs ++ ds) =
      charIndices offset cs ++ charIndices (offset + byteLength cs) ds := by
  induction cs generalizing offset with
  | nil => rfl
  | cons c cs ih =>
    rw [List.cons_append, charIndices, charIndices, ih, byteLength_cons, Nat.add_assoc]
    rfl

/-! ### Parts -/

theorem splitAt?_append (before after : List Char) :
    splitAt? (byteLength before) (before ++ after) = some (before, after) := by
  induction before with
  | nil => rw [byteLength_nil, List.nil_append, splitAt?]
  | cons c before ih =>
    obtain ⟨n, hn⟩ : ∃ n, c.utf8Size + byteLength before = n + 1 :=
      Nat.exists_eq_add_one.mpr (Nat.add_pos_left c.utf8Size_pos _)
    have hle : c.utf8Size ≤ n + 1 := hn ▸ Nat.le_add_right _ _
    rw [byteLength_cons, hn, List.cons_append, splitAt?, if_pos hle, ← hn, Nat.add_sub_cancel_left,
      ih]
    rfl

/-- A text is split in one way at a boundary. -/
theorem append_inj_of_byteLength {cs cs' ds ds' : List Char} (h : cs ++ ds = cs' ++ ds')
    (hlength : byteLength cs = byteLength cs') : cs = cs' ∧ ds = ds' := by
  have hsplit := splitAt?_append cs ds
  rw [h, hlength, splitAt?_append, Option.some.injEq, Prod.mk.injEq] at hsplit
  exact ⟨hsplit.1.symm, hsplit.2.symm⟩

theorem slice?_append (before part after : List Char) :
    slice? (before ++ (part ++ after)) (byteLength before) (byteLength (before ++ part)) =
      some part := by
  have hstart := splitAt?_append before part
  rw [slice?, ← List.append_assoc, splitAt?_append]
  simp only [Option.bind_eq_bind, Option.bind_some, hstart, Option.pure_def]

theorem slice?_zero_append (before after : List Char) :
    slice? (before ++ after) 0 (byteLength before) = some before :=
  slice?_append [] before after

end WellSorted.Text
