import Koowaldah.Lib.Bytes

/-!
# Byte sequences in parts

A sequence of bytes may lie in memory in parts of one size, which are not next to each other.
`readParts mem size as` is the sequence whose parts start at the addresses `as`.

A range that is inside one part is a range of memory (`readParts_range`), and a move of bytes
into one part replaces a range of the sequence (`readParts_moveBytes`), if no other part has
bytes there.  `readParts_moveBytes_of_apart` is the frame.

`overlay new old n` is a list of which the first `n` elements have been replaced; `overlay_add`
goes on with the next ones.
-/

namespace SysLib

/-- The bytes of all parts, one part after the other. -/
def readParts (mem : ByteMem) (size : Nat) (as : List Nat) : List UInt8 :=
  as.flatMap (fun a => readBytes mem a size)

variable {mem : ByteMem} {size : Nat}

@[simp] theorem readParts_length (mem : ByteMem) (size : Nat) (as : List Nat) :
    (readParts mem size as).length = as.length * size := by
  unfold readParts
  simp

theorem readParts_append_cons (mem : ByteMem) (size : Nat) (pre : List Nat) (a : Nat)
    (post : List Nat) : readParts mem size (pre ++ a :: post) =
      readParts mem size pre ++ (readBytes mem a size ++ readParts mem size post) := by
  unfold readParts
  rw [List.flatMap_append, List.flatMap_cons]

theorem readBytes_split (mem : ByteMem) (a : Nat) {o n : Nat} (h : o + n ≤ size) :
    readBytes mem a size =
      readBytes mem a o ++ (readBytes mem (a + o) n ++
        readBytes mem (a + o + n) (size - (o + n))) := by
  obtain ⟨d, hd⟩ := Nat.exists_eq_add_of_le h
  rw [hd, Nat.add_sub_cancel_left, ← readBytes_add, Nat.add_assoc, readBytes_add]

section Range

variable {o n : Nat}

theorem readParts_split (mem : ByteMem) (pre : List Nat) (a : Nat) (post : List Nat)
    (h : o + n ≤ size) : readParts mem size (pre ++ a :: post) =
      (readParts mem size pre ++ readBytes mem a o) ++ (readBytes mem (a + o) n ++
        (readBytes mem (a + o + n) (size - (o + n)) ++ readParts mem size post)) := by
  rw [readParts_append_cons, readBytes_split mem a h]
  simp only [List.append_assoc]

theorem readParts_take (mem : ByteMem) (pre : List Nat) (a : Nat) (post : List Nat)
    (h : o + n ≤ size) : (readParts mem size (pre ++ a :: post)).take (pre.length * size + o) =
      readParts mem size pre ++ readBytes mem a o := by
  rw [readParts_split mem pre a post h]
  apply List.take_left'
  simp

theorem readParts_range (mem : ByteMem) (pre : List Nat) (a : Nat) (post : List Nat)
    (h : o + n ≤ size) :
    ((readParts mem size (pre ++ a :: post)).drop (pre.length * size + o)).take n =
      readBytes mem (a + o) n := by
  rw [readParts_split mem pre a post h, List.drop_left' (by simp)]
  apply List.take_left'
  simp

theorem readParts_drop (mem : ByteMem) (pre : List Nat) (a : Nat) (post : List Nat)
    (h : o + n ≤ size) : (readParts mem size (pre ++ a :: post)).drop (pre.length * size + o + n) =
      readBytes mem (a + o + n) (size - (o + n)) ++ readParts mem size post := by
  rw [readParts_split mem pre a post h, ← List.drop_drop, List.drop_left' (by simp)]
  apply List.drop_left'
  simp

/-- No byte of a part is in the range. -/
def PartApart (size dst n a : Nat) : Prop := a + size ≤ dst ∨ dst + n ≤ a

theorem readParts_moveBytes_of_apart (src : Nat) {dst : Nat} {as : List Nat}
    (h : ∀ a ∈ as, PartApart size dst n a) :
    readParts (moveBytes mem dst src n) size as = readParts mem size as := by
  unfold readParts
  induction as with
  | nil => rfl
  | cons a as ih =>
    rw [List.flatMap_cons, List.flatMap_cons, ih (fun b hb => h b (List.mem_cons_of_mem a hb)),
      readBytes_moveBytes_of_disjoint mem (h a List.mem_cons_self)]

theorem readParts_moveBytes (mem : ByteMem) (pre : List Nat) (a : Nat) (post : List Nat) (src : Nat)
    (h : o + n ≤ size) (hpre : ∀ b ∈ pre, PartApart size (a + o) n b)
    (hpost : ∀ b ∈ post, PartApart size (a + o) n b) :
    readParts (moveBytes mem (a + o) src n) size (pre ++ a :: post) =
      (readParts mem size (pre ++ a :: post)).take (pre.length * size + o) ++
        (readBytes mem src n ++
          (readParts mem size (pre ++ a :: post)).drop (pre.length * size + o + n)) := by
  rw [readParts_split (moveBytes mem (a + o) src n) pre a post h, readParts_take mem pre a post h,
    readParts_drop mem pre a post h, readParts_moveBytes_of_apart src hpre,
    readParts_moveBytes_of_apart src hpost, readBytes_moveBytes,
    readBytes_moveBytes_of_disjoint mem (Or.inl (Nat.le_refl _)),
    readBytes_moveBytes_of_disjoint mem (Or.inr (Nat.le_refl _))]

end Range

/-! ## Replacing from the front -/

/-- The first `n` elements are those of the other list. -/
def overlay {α : Type} (new old : List α) (n : Nat) : List α := new.take n ++ old.drop n

theorem overlay_add {α : Type} {new old : List α} {n k : Nat} (h : n ≤ new.length) :
    (overlay new old n).take n ++ ((new.drop n).take k ++ (overlay new old n).drop (n + k)) =
      overlay new old (n + k) := by
  have hlen : (new.take n).length = n := List.length_take_of_le h
  unfold overlay
  rw [List.take_left' hlen, ← List.drop_drop, List.drop_left' hlen, List.drop_drop,
    List.take_add, List.append_assoc]

end SysLib
