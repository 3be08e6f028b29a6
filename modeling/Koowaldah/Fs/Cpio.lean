import Koowaldah.Fs.Insert
import Koowaldah.Lib.Bytes

/-!
# Reading a cpio archive

A model of `cpio_read` of `kernel/fs/cpio.c`, and of the old binary format it reads.
Addresses are 32 bits wide, and sums of them wrap.

`cpio_read` reads the archive where it is, and calls `fs_insert_entry` for every entry.
The loop takes the function that does the call as an argument (`cpioReadWith`), so one
definition gives `cpio_read` on the file system (`FsState.cpioRead`) and the list of what
it inserts (`cpioInserts`).

The device of a header is not read with the order of the bytes in mind.
`cpioInserts_swap_iff` says which archives are the same in both orders.
-/

namespace Koowaldah

open SysLib

variable {mem : ByteMem} {a n t : Nat} {l : List UInt8} {reverse : Bool}

def EIO : Int := 5

def MAGIC : Nat := 0o070707

def TRAILER : List UInt8 := [0x54, 0x52, 0x41, 0x49, 0x4c, 0x45, 0x52, 0x21, 0x21, 0x21]

/-- `sizeof(HD_BCPIO)`. -/
def SIZEOF_HD_BCPIO : Nat := 26

/-- `cpio2su16`, for a field at an address. -/
def cpio2su16 (mem : ByteMem) (f : Nat) : Nat := (mem (f + 1)).toNat <<< 8 ||| (mem f).toNat

def cpio2ru16 (mem : ByteMem) (f : Nat) : Nat := (mem f).toNat <<< 8 ||| (mem (f + 1)).toNat

def cpio2u16 (mem : ByteMem) (reverse : Bool) (f : Nat) : Nat :=
  if reverse then cpio2ru16 mem f else cpio2su16 mem f

/-- `ALIGN2`, of a `size_t`. -/
def ALIGN2 (x : Nat) : Nat := (x + 1) / 2 * 2 % WORD_RANGE

/-- The string at an address, of `n` characters at most. -/
def strAt (mem : ByteMem) : Nat → Nat → List UInt8
  | 0, _ => []
  | n + 1, a => if mem a = 0 then [] else mem a :: strAt mem n (a + 1)

structure InsertCall where
  name : List UInt8
  mode : Nat
  dev : Nat
  buf : Option Nat
  len : Nat
deriving DecidableEq, Repr

/-- What a round of the loop of `cpio_read` comes to: the value returned, or a call and
the next `t`. -/
inductive CpioRound where
  | done (ret : Int)
  | insert (call : InsertCall) (t : Nat)
deriving DecidableEq, Repr

/-- The inner loop of `cpio_read`: go on to the next magic number. -/
def cpioSync (mem : ByteMem) (reverse : Bool) : Nat → Nat → Nat
  | 0, t => t
  | n + 1, t => if cpio2u16 mem reverse t ≠ MAGIC then cpioSync mem reverse n (t + 1) else t

/-- A round of the loop of `cpio_read`.  The fields of the header are at fixed offsets:
the mode at 6, the device at 14, the length of the name at 20, and the two halves of the
length of the body at 22 and 24. -/
def cpioRound (mem : ByteMem) (reverse : Bool) (rootfsEnd t : Nat) : CpioRound :=
  let t := cpioSync mem reverse (rootfsEnd - t) t
  if cpio2u16 mem reverse t ≠ MAGIC then .done (- EIO)
  else
    let fsize := cpio2u16 mem reverse (t + 22) <<< 16 ||| cpio2u16 mem reverse (t + 24)
    let mode := cpio2u16 mem reverse (t + 6)
    let name := (t + SIZEOF_HD_BCPIO) % WORD_RANGE
    let str := strAt mem WORD_RANGE name
    if kstrcmp str TRAILER = 0 then .done 0
    else
      let body := (name + ALIGN2 (cpio2u16 mem reverse (t + 20))) % WORD_RANGE
      if !S_ISCHR mode && !S_ISDIR mode then
        .insert ⟨str, mode, NODEV, some body, fsize⟩ ((body + ALIGN2 fsize) % WORD_RANGE)
      else
        -- the device is not read through `cpio2u16`
        .insert ⟨str, mode, DEV_DEVICE (mem (t + 15)).toNat (mem (t + 14)).toNat, none, 0⟩ body

section Loop

variable {σ : Type*} (memOf : σ → ByteMem) (insert : σ → InsertCall → Option σ)

/-- The loop of `cpio_read`, in a number of rounds: `none` when it is not over then, and
`some none` when a call went wrong.  What a call does is given. -/
def cpioLoop (reverse : Bool) (rootfsEnd : Nat) : Nat → σ → Nat → Option (Option (σ × Int))
  | 0, _, _ => none
  | n + 1, s, t =>
    if t < rootfsEnd then
      match cpioRound (memOf s) reverse rootfsEnd t with
      | .done ret => some (some (s, ret))
      | .insert call t =>
        match insert s call with
        | none => some none
        | some s => cpioLoop reverse rootfsEnd n s t
    else some (some (s, 0))

/-- `cpio_read`: the state and the value returned. -/
def cpioReadWith (rootfsStart rootfsEnd rounds : Nat) (s : σ) : Option (Option (σ × Int)) :=
  let reverse := decide (cpio2ru16 (memOf s) rootfsStart = MAGIC)
  cpioLoop memOf insert reverse rootfsEnd rounds s rootfsStart

end Loop

def FsState.cpioRead (s : FsState) (rootfsStart rootfsEnd rounds : Nat) :
    Option (Option (FsState × Int)) :=
  cpioReadWith FsState.mem
    (fun s call => s.fsInsertEntry call.name call.mode call.dev call.buf call.len)
    rootfsStart rootfsEnd rounds s

/-! ## The format -/

def u16Bytes (reverse : Bool) (n : Nat) : List UInt8 :=
  if reverse then [UInt8.ofNat (n / 256), UInt8.ofNat n] else [UInt8.ofNat n, UInt8.ofNat (n / 256)]

/-- A part of an archive that begins at an even offset. -/
def padded (l : List UInt8) : List UInt8 := l ++ List.replicate (l.length % 2) 0

/-- An entry of an archive in the old binary format. -/
structure CpioEntry where
  dev : Nat
  ino : Nat
  mode : Nat
  uid : Nat
  gid : Nat
  nlink : Nat
  rdev : Nat
  mtime1 : Nat
  mtime2 : Nat
  name : List UInt8
  body : List UInt8
  mode_lt : mode < 65536
  rdev_lt : rdev < 65536
  name_ne : name ≠ []
  name_nul : 0 ∉ name
  name_lt : name.length + 1 < 65536
  body_lt : body.length < WORD_RANGE
  body_nil : S_ISCHR mode ∨ S_ISDIR mode → body = []

namespace CpioEntry

def fields (e : CpioEntry) : List Nat :=
  [MAGIC, e.dev, e.ino, e.mode, e.uid, e.gid, e.nlink, e.rdev, e.mtime1, e.mtime2,
    e.name.length + 1, e.body.length / 65536, e.body.length % 65536]

def encode (reverse : Bool) (e : CpioEntry) : List UInt8 :=
  e.fields.flatMap (u16Bytes reverse) ++ padded (e.name ++ [0]) ++ padded e.body

/-- The major and the minor number of the device. -/
def device (e : CpioEntry) : Nat := DEV_DEVICE (e.rdev / 256) (e.rdev % 256)

end CpioEntry

/-- The bytes of an archive: its entries, and a last one with the name `TRAILER!!!`. -/
def cpioImage (reverse : Bool) (es : List CpioEntry) (trailer : CpioEntry) : List UInt8 :=
  es.flatMap (CpioEntry.encode reverse) ++ trailer.encode reverse

/-! ## Bytes in memory -/

/-- The bytes of the list are in memory from `a` up. -/
def BytesAt (mem : ByteMem) (a : Nat) (l : List UInt8) : Prop := readBytes mem a l.length = l

theorem bytesAt_append {r : List UInt8} :
    BytesAt mem a (l ++ r) ↔ BytesAt mem a l ∧ BytesAt mem (a + l.length) r := by
  unfold BytesAt
  rw [List.length_append, readBytes_add]
  constructor
  · intro h
    exact List.append_inj h (readBytes_length _ _ _)
  · intro h
    rw [h.1, h.2]

theorem bytesAt_cons {x : UInt8} : BytesAt mem a (x :: l) ↔ mem a = x ∧ BytesAt mem (a + 1) l := by
  rw [← List.singleton_append, bytesAt_append]
  apply and_congr_left'
  unfold BytesAt readBytes
  simp

theorem strAt_eq {str : List UInt8} (hnul : 0 ∉ str) (hn : str.length < n)
    (h : BytesAt mem a (str ++ [0])) : strAt mem n a = str := by
  induction str generalizing n a with
  | nil =>
    cases n with
    | zero => cases hn
    | succ n => rw [strAt, if_pos (bytesAt_cons.mp h).1]
  | cons x str ih =>
    rw [List.mem_cons, not_or] at hnul
    rw [List.cons_append, bytesAt_cons] at h
    cases n with
    | zero => cases hn
    | succ n =>
      rw [strAt, h.1, if_neg (Ne.symm hnul.1), ih hnul.2 (Nat.lt_of_succ_lt_succ hn) h.2]

theorem cpio2u16_eq {f : Nat} (hn : n < 65536) (h : BytesAt mem f (u16Bytes reverse n)) :
    cpio2u16 mem reverse f = n := by
  have hvalue : (UInt8.ofNat (n / 256)).toNat <<< 8 ||| (UInt8.ofNat n).toNat = n := by
    rw [UInt8.toNat_ofNat', UInt8.toNat_ofNat', Nat.mod_eq_of_lt (by omega),
      ← Nat.shiftLeft_add_eq_or_of_lt (Nat.mod_lt _ (by decide)), Nat.shiftLeft_eq]
    omega
  unfold cpio2u16
  cases reverse with
  | false =>
    rcases bytesAt_cons.mp h with ⟨hlo, h⟩
    rcases bytesAt_cons.mp h with ⟨hhi, -⟩
    rw [if_neg (by decide), cpio2su16, hlo, hhi, hvalue]
  | true =>
    rcases bytesAt_cons.mp h with ⟨hhi, h⟩
    rcases bytesAt_cons.mp h with ⟨hlo, -⟩
    rw [if_pos rfl, cpio2ru16, hlo, hhi, hvalue]

theorem u16Bytes_length (reverse : Bool) (n : Nat) : (u16Bytes reverse n).length = 2 := by
  unfold u16Bytes
  split <;> rfl

theorem bytesAt_field {fields : List Nat} (h : BytesAt mem a (fields.flatMap (u16Bytes reverse)))
    {k : Nat} (hk : fields[k]? = some n) : BytesAt mem (a + 2 * k) (u16Bytes reverse n) := by
  induction fields generalizing a k with
  | nil => cases hk
  | cons f fields ih =>
    rw [List.flatMap_cons, bytesAt_append, u16Bytes_length] at h
    cases k with
    | zero =>
      rw [List.getElem?_cons_zero, Option.some.injEq] at hk
      exact hk ▸ h.1
    | succ k =>
      have hfield := ih h.2 hk
      rw [show a + 2 * (k + 1) = a + 2 + 2 * k by omega]
      exact hfield

theorem padded_length (h : l.length + 1 < WORD_RANGE) : (padded l).length = ALIGN2 l.length := by
  have hlt : (l.length + 1) / 2 * 2 < WORD_RANGE := by omega
  unfold padded ALIGN2
  rw [List.length_append, List.length_replicate, Nat.mod_eq_of_lt hlt]
  omega

/-! ## One entry -/

namespace CpioEntry

variable (e : CpioEntry) (reverse : Bool)

/-- The call of `fs_insert_entry` for an entry at `t`. -/
def call (t : Nat) : InsertCall :=
  if !S_ISCHR e.mode && !S_ISDIR e.mode then
    ⟨e.name, e.mode, NODEV, some (t + SIZEOF_HD_BCPIO + (padded (e.name ++ [0])).length),
      e.body.length⟩
  else
    ⟨e.name, e.mode, if reverse then DEV_DEVICE (e.rdev % 256) (e.rdev / 256) else e.device,
      none, 0⟩

theorem body_eq_nil (h : ¬(!S_ISCHR e.mode && !S_ISDIR e.mode) = true) : e.body = [] := by
  apply e.body_nil
  cases hchr : S_ISCHR e.mode with
  | true => exact .inl rfl
  | false =>
    cases hdir : S_ISDIR e.mode with
    | true => exact .inr rfl
    | false => simp [hchr, hdir] at h

theorem header_length : (e.fields.flatMap (u16Bytes reverse)).length = SIZEOF_HD_BCPIO := by
  unfold fields
  simp [u16Bytes_length, SIZEOF_HD_BCPIO]

theorem encode_length : (e.encode reverse).length =
      SIZEOF_HD_BCPIO + (padded (e.name ++ [0])).length + (padded e.body).length := by
  unfold encode
  rw [List.length_append, List.length_append, e.header_length reverse]

variable {e reverse} {mem : ByteMem} {t : Nat}

section

variable (h : BytesAt mem t (e.encode reverse))

include h

theorem bytesAt_encode : BytesAt mem t (e.fields.flatMap (u16Bytes reverse)) ∧
      BytesAt mem (t + SIZEOF_HD_BCPIO) (e.name ++ [0]) ∧
      BytesAt mem (t + SIZEOF_HD_BCPIO + (padded (e.name ++ [0])).length) e.body := by
  unfold encode at h
  rw [bytesAt_append, bytesAt_append, List.length_append, header_length, ← Nat.add_assoc] at h
  rcases h with ⟨⟨hhead, hname⟩, hbody⟩
  exact ⟨hhead, (bytesAt_append.mp hname).1, (bytesAt_append.mp hbody).1⟩

theorem cpio2u16_field {k n : Nat}
    (hk : e.fields[k]? = some n) (hn : n < 65536) : cpio2u16 mem reverse (t + 2 * k) = n :=
  cpio2u16_eq hn (bytesAt_field (bytesAt_encode h).1 hk)

theorem cpio2u16_magic : cpio2u16 mem reverse t = MAGIC :=
  cpio2u16_field h (k := 0) rfl (by decide)

theorem cpioSync_eq (n : Nat) : cpioSync mem reverse n t = t := by
  cases n with
  | zero => rfl
  | succ n => rw [cpioSync, if_neg (not_not.mpr (cpio2u16_magic h))]

theorem strAt_name : strAt mem WORD_RANGE (t + SIZEOF_HD_BCPIO) = e.name := by
  apply strAt_eq e.name_nul _ (bytesAt_encode h).2.1
  have := e.name_lt
  unfold WORD_RANGE
  omega

theorem cpioRound_trailer (hname : e.name = TRAILER)
    (hlt : t + SIZEOF_HD_BCPIO < WORD_RANGE) (rootfsEnd : Nat) :
    cpioRound mem reverse rootfsEnd t = .done 0 := by
  unfold cpioRound
  rw [cpioSync_eq h]
  dsimp only
  rw [if_neg (not_not.mpr (cpio2u16_magic h)), Nat.mod_eq_of_lt hlt, strAt_name h, hname,
    if_pos (by decide)]

theorem rdev_bytes : DEV_DEVICE (mem (t + 15)).toNat (mem (t + 14)).toNat =
      if reverse then DEV_DEVICE (e.rdev % 256) (e.rdev / 256) else e.device := by
  have hfield : BytesAt mem (t + 2 * 7) (u16Bytes reverse e.rdev) :=
    bytesAt_field (bytesAt_encode h).1 rfl
  have hhi : (UInt8.ofNat (e.rdev / 256)).toNat = e.rdev / 256 := by
    have := e.rdev_lt
    rw [UInt8.toNat_ofNat', Nat.mod_eq_of_lt (by omega)]
  cases reverse with
  | false =>
    rcases bytesAt_cons.mp hfield with ⟨h14, hfield⟩
    rcases bytesAt_cons.mp hfield with ⟨h15, -⟩
    rw [h14, h15, hhi]
    rfl
  | true =>
    rcases bytesAt_cons.mp hfield with ⟨h14, hfield⟩
    rcases bytesAt_cons.mp hfield with ⟨h15, -⟩
    rw [h14, h15, hhi]
    rfl

theorem cpioRound_entry (hname : e.name ≠ TRAILER)
    (hlt : t + (e.encode reverse).length < WORD_RANGE) (rootfsEnd : Nat) :
    cpioRound mem reverse rootfsEnd t =
      .insert (e.call reverse t) (t + (e.encode reverse).length) := by
  have hmode : cpio2u16 mem reverse (t + 6) = e.mode := cpio2u16_field h (k := 3) rfl e.mode_lt
  have hnamesize : cpio2u16 mem reverse (t + 20) = e.name.length + 1 :=
    cpio2u16_field h (k := 10) rfl e.name_lt
  have hsize1 : cpio2u16 mem reverse (t + 22) = e.body.length / 65536 := by
    apply cpio2u16_field h (k := 11) rfl
    have := e.body_lt
    unfold WORD_RANGE at this
    omega
  have hsize2 : cpio2u16 mem reverse (t + 24) = e.body.length % 65536 :=
    cpio2u16_field h (k := 12) rfl (Nat.mod_lt _ (by decide))
  have hfsize : (e.body.length / 65536) <<< 16 ||| e.body.length % 65536 = e.body.length := by
    rw [← Nat.shiftLeft_add_eq_or_of_lt (Nat.mod_lt _ (by decide))]
    omega
  have htrailer : kstrcmp e.name TRAILER ≠ 0 := fun hcmp =>
    hname ((kstrcmp_eq_zero_iff e.name_nul (by decide)).mp hcmp)
  rw [encode_length] at hlt ⊢
  have hpad : ALIGN2 (e.name.length + 1) = (padded (e.name ++ [0])).length := by
    have hlen : (e.name ++ [0]).length + 1 < WORD_RANGE := by
      have := e.name_lt
      rw [List.length_append, List.length_singleton]
      unfold WORD_RANGE
      omega
    rw [padded_length hlen, List.length_append, List.length_singleton]
  have hpadbody : ALIGN2 e.body.length = (padded e.body).length := by
    have hle : e.body.length ≤ (padded e.body).length := by
      unfold padded
      rw [List.length_append]
      omega
    rw [padded_length]
    unfold SIZEOF_HD_BCPIO at hlt
    omega
  have hname' : (t + SIZEOF_HD_BCPIO) % WORD_RANGE = t + SIZEOF_HD_BCPIO :=
    Nat.mod_eq_of_lt (by omega)
  have hbody' : (t + SIZEOF_HD_BCPIO + (padded (e.name ++ [0])).length) % WORD_RANGE =
      t + SIZEOF_HD_BCPIO + (padded (e.name ++ [0])).length := Nat.mod_eq_of_lt (by omega)
  have hnext : (t + SIZEOF_HD_BCPIO + (padded (e.name ++ [0])).length +
      (padded e.body).length) % WORD_RANGE =
      t + ( SIZEOF_HD_BCPIO + (padded (e.name ++ [0])).length + (padded e.body).length) := by
    rw [Nat.mod_eq_of_lt (by omega)]
    omega
  unfold cpioRound
  rw [cpioSync_eq h]
  dsimp only
  rw [if_neg (not_not.mpr (cpio2u16_magic h)), hname', strAt_name h, if_neg htrailer, hmode,
    hnamesize, hpad, hbody', hsize1, hsize2, hfsize, hpadbody, hnext, rdev_bytes h]
  unfold call
  split
  · rfl
  · rename_i hkind
    have hnil := e.body_eq_nil hkind
    rw [hnil, show (padded []).length = 0 from rfl, Nat.add_zero, Nat.add_assoc]

end

end CpioEntry

/-! ## A whole archive -/

theorem BytesAt.congr {mem' : ByteMem} (h : BytesAt mem a l)
    (hmem : ∀ x, a ≤ x → x < a + l.length → mem' x = mem x) : BytesAt mem' a l :=
  (readBytes_congr hmem).trans h

/-- The calls that `cpio_read` makes for the entries from `t` up. -/
def cpioCalls (reverse : Bool) : Nat → List CpioEntry → List InsertCall
  | _, [] => []
  | t, e :: es => e.call reverse t :: cpioCalls reverse (t + (e.encode reverse).length) es

theorem reverse_eq {e : CpioEntry} (h : BytesAt mem t (e.encode reverse)) :
    decide (cpio2ru16 mem t = MAGIC) = reverse := by
  cases reverse with
  | true => exact decide_eq_true (CpioEntry.cpio2u16_magic h)
  | false =>
    have hfield : BytesAt mem (t + 2 * 0) (u16Bytes false MAGIC) :=
      bytesAt_field (CpioEntry.bytesAt_encode h).1 rfl
    rcases bytesAt_cons.mp hfield with ⟨hlo, hfield⟩
    rcases bytesAt_cons.mp hfield with ⟨hhi, -⟩
    have hlo' : mem t = UInt8.ofNat MAGIC := hlo
    have hhi' : mem (t + 1) = UInt8.ofNat (MAGIC / 256) := hhi
    unfold cpio2ru16
    rw [hlo', hhi']
    decide

section Run

variable {σ : Type*} {memOf : σ → ByteMem} {insert : σ → InsertCall → Option σ}

variable {n : Nat}

theorem cpioLoop_mono {reverse : Bool} {rootfsEnd t : Nat} {s : σ} {r : Option (σ × Int)}
    (h : cpioLoop memOf insert reverse rootfsEnd n s t = some r) (m : Nat) :
    cpioLoop memOf insert reverse rootfsEnd (n + m) s t = some r := by
  induction n generalizing s t with
  | zero => cases h
  | succ n ih =>
    rw [Nat.add_right_comm]
    unfold cpioLoop at h ⊢
    split
    · rename_i hlt
      rw [if_pos hlt] at h
      cases hround : cpioRound (memOf s) reverse rootfsEnd t with
      | done ret =>
        rw [hround] at h
        exact h
      | insert call t' =>
        rw [hround] at h
        dsimp only at h ⊢
        cases hins : insert s call with
        | none =>
          rw [hins] at h
          exact h
        | some s' =>
          rw [hins] at h
          exact ih h
    · rename_i hlt
      rw [if_neg hlt] at h
      exact h

variable {J : σ → Prop} {mem : ByteMem} {lo hi rootfsEnd : Nat} {reverse : Bool}
  {trailer : CpioEntry}

/-- The loop makes the calls of the entries in front of the trailer.  `J` is kept by the
calls and says that the archive is in memory. -/
theorem cpioLoop_image (hmem : ∀ s, J s → ∀ x, lo ≤ x → x < hi → memOf s x = mem x)
    (hkeep : ∀ s call s', J s → insert s call = some s' → J s') (hend : hi ≤ rootfsEnd)
    (hword : hi ≤ WORD_RANGE) (htrailer : trailer.name = TRAILER) (es : List CpioEntry)
    (hnames : ∀ e ∈ es, e.name ≠ TRAILER) {t : Nat} {s : σ} (hs : J s) (hlo : lo ≤ t)
    (hhi : t + (cpioImage reverse es trailer).length ≤ hi)
    (hat : BytesAt mem t (cpioImage reverse es trailer)) (hn : es.length < n) :
    cpioLoop memOf insert reverse rootfsEnd n s t =
      some (((cpioCalls reverse t es).foldlM insert s).map (fun s => (s, 0))) := by
  have hpos : SIZEOF_HD_BCPIO < (trailer.encode reverse).length := by
    rw [trailer.encode_length]
    unfold padded
    simp only [List.length_append, List.length_singleton]
    omega
  induction es generalizing t n s with
  | nil =>
    obtain ⟨n, rfl⟩ := Nat.exists_eq_succ_of_ne_zero (Nat.ne_of_gt hn)
    change BytesAt mem t (trailer.encode reverse) at hat
    change t + (trailer.encode reverse).length ≤ hi at hhi
    have hat' : BytesAt (memOf s) t (trailer.encode reverse) :=
      hat.congr (fun x hx hx' => hmem s hs x (by omega) (by omega))
    rw [cpioLoop, if_pos (by omega),
      CpioEntry.cpioRound_trailer hat' htrailer (by omega)]
    rfl
  | cons e es ih =>
    have himage : cpioImage reverse (e :: es) trailer =
        e.encode reverse ++ cpioImage reverse es trailer := by
      unfold cpioImage
      rw [List.flatMap_cons, List.append_assoc]
    have hrest : (trailer.encode reverse).length ≤ (cpioImage reverse es trailer).length := by
      unfold cpioImage
      rw [List.length_append]
      omega
    rw [himage, List.length_append] at hhi
    rw [himage, bytesAt_append] at hat
    obtain ⟨n, rfl⟩ := Nat.exists_eq_succ_of_ne_zero
      (Nat.ne_of_gt (Nat.lt_of_le_of_lt (Nat.zero_le _) hn))
    have hat' : BytesAt (memOf s) t (e.encode reverse) :=
      hat.1.congr (fun x hx hx' => hmem s hs x (by omega) (by omega))
    rw [cpioLoop, if_pos (by omega),
      CpioEntry.cpioRound_entry hat' (hnames e List.mem_cons_self) (by omega)]
    dsimp only
    rw [cpioCalls, List.foldlM_cons]
    cases hins : insert s (e.call reverse t) with
    | none => rfl
    | some s' =>
      exact ih (fun x hx => hnames x (List.mem_cons_of_mem e hx)) (hkeep s _ s' hs hins)
        (by omega) (by omega) hat.2 (Nat.lt_of_succ_lt_succ hn)

theorem cpioReadWith_image (memOf : σ → ByteMem) (insert : σ → InsertCall → Option σ) (J : σ → Prop)
    (hmem : ∀ s, J s → ∀ x, lo ≤ x → x < hi → memOf s x = mem x)
    (hkeep : ∀ s call s', J s → insert s call = some s' → J s') (hend : hi ≤ rootfsEnd)
    (hword : hi ≤ WORD_RANGE) (htrailer : trailer.name = TRAILER) {es : List CpioEntry}
    (hnames : ∀ e ∈ es, e.name ≠ TRAILER) {s : σ} (hs : J s)
    (hhi : lo + (cpioImage reverse es trailer).length ≤ hi)
    (hat : BytesAt mem lo (cpioImage reverse es trailer)) (hn : es.length < n) :
    cpioReadWith memOf insert lo rootfsEnd n s =
      some (((cpioCalls reverse lo es).foldlM insert s).map (fun s => (s, 0))) := by
  have hat' : BytesAt (memOf s) lo (cpioImage reverse es trailer) :=
    hat.congr (fun x hx hx' => hmem s hs x hx (by omega))
  have hfirst : ∃ e : CpioEntry, BytesAt (memOf s) lo (e.encode reverse) := by
    cases es with
    | nil => exact ⟨trailer, hat'⟩
    | cons e es =>
      unfold cpioImage at hat'
      rw [List.flatMap_cons, List.append_assoc] at hat'
      exact ⟨e, (bytesAt_append.mp hat').1⟩
  rcases hfirst with ⟨e, he⟩
  unfold cpioReadWith
  rw [reverse_eq he]
  exact cpioLoop_image hmem hkeep hend hword htrailer es hnames hs (Nat.le_refl lo) hhi hat hn

end Run

/-! ## The order of the bytes -/

/-- What a call of `fs_insert_entry` is given, with the contents of the file. -/
structure CpioInserted where
  name : List UInt8
  mode : Nat
  dev : Nat
  body : List UInt8
deriving DecidableEq, Repr

/-- The arguments of a call, with the bytes its buffer has in `mem`. -/
def InsertCall.inserted (mem : ByteMem) (c : InsertCall) : CpioInserted where
  name := c.name
  mode := c.mode
  dev := c.dev
  body := match c.buf with
    | none => []
    | some buf => readBytes mem buf c.len

/-- What `cpio_read` inserts, call by call, and the value returned. -/
def cpioInserts (mem : ByteMem) (rootfsStart rootfsEnd rounds : Nat) :
    Option (Option (List CpioInserted × Int)) :=
  cpioReadWith (fun _ => mem) (fun log c => some (log ++ [c.inserted mem])) rootfsStart rootfsEnd
    rounds []

/-- What is to be inserted for an entry, as `cpio_read` finds it in one order of the
bytes. -/
def CpioEntry.inserted (reverse : Bool) (e : CpioEntry) : CpioInserted where
  name := e.name
  mode := e.mode
  dev := (e.call reverse 0).dev
  body := e.body

theorem CpioEntry.call_inserted {e : CpioEntry} (h : BytesAt mem t (e.encode reverse)) :
    (e.call reverse t).inserted mem = e.inserted reverse := by
  have hbody := (CpioEntry.bytesAt_encode h).2.2
  unfold InsertCall.inserted CpioEntry.inserted CpioEntry.call
  split
  · dsimp only
    rw [hbody]
  · rename_i hkind
    have hnil : e.body = [] := e.body_eq_nil hkind
    rw [hnil]

theorem foldlM_cpioCalls (es : List CpioEntry)
    (h : BytesAt mem t (es.flatMap (CpioEntry.encode reverse))) (log : List CpioInserted) :
    (cpioCalls reverse t es).foldlM (fun log c => some (log ++ [c.inserted mem])) log =
      some (log ++ es.map (CpioEntry.inserted reverse)) := by
  induction es generalizing t log with
  | nil =>
    rw [List.map_nil, List.append_nil]
    rfl
  | cons e es ih =>
    rw [List.flatMap_cons, bytesAt_append] at h
    rw [cpioCalls, List.foldlM_cons, CpioEntry.call_inserted h.1]
    show List.foldlM _ (log ++ [e.inserted reverse]) _ = _
    rw [ih h.2, List.map_cons, List.append_assoc, List.singleton_append]

theorem cpioInserts_image {start rootfsEnd : Nat} {es : List CpioEntry} {trailer : CpioEntry}
    (htrailer : trailer.name = TRAILER) (hnames : ∀ e ∈ es, e.name ≠ TRAILER)
    (hat : BytesAt mem start (cpioImage reverse es trailer))
    (hend : start + (cpioImage reverse es trailer).length ≤ rootfsEnd)
    (hword : rootfsEnd ≤ WORD_RANGE) (hn : es.length < n) :
    cpioInserts mem start rootfsEnd n = some (some (es.map (CpioEntry.inserted reverse), 0)) := by
  have hread := cpioReadWith_image (fun _ : List CpioInserted => mem)
    (fun log c => some (log ++ [c.inserted mem])) (fun _ => True) (s := [])
    (fun _ _ _ _ _ => rfl) (fun _ _ _ _ _ => trivial) (Nat.le_refl rootfsEnd) hword htrailer
    hnames trivial hend hat hn
  have hlog := foldlM_cpioCalls es (bytesAt_append.mp hat).1 []
  unfold cpioInserts
  rw [hread, hlog]
  rfl

def SameInserts (mem mem' : ByteMem) (start rootfsEnd : Nat) : Prop :=
  ∃ r, (∃ rounds, cpioInserts mem start rootfsEnd rounds = some (some r)) ∧
    ∃ rounds, cpioInserts mem' start rootfsEnd rounds = some (some r)

theorem DEV_DEVICE_eq {b : Nat} (hb : b < 65536) : DEV_DEVICE a b = a * 65536 + b := by
  unfold DEV_DEVICE
  rw [← Nat.shiftLeft_add_eq_or_of_lt hb, Nat.shiftLeft_eq]

theorem CpioEntry.inserted_eq_iff (e : CpioEntry) (reverse : Bool) :
    e.inserted (!reverse) = e.inserted reverse ↔
      (S_ISCHR e.mode ∨ S_ISDIR e.mode → e.rdev / 256 = e.rdev % 256) := by
  have hlt := e.rdev_lt
  have hdev : DEV_DEVICE (e.rdev % 256) (e.rdev / 256) = e.device ↔
      e.rdev / 256 = e.rdev % 256 := by
    unfold device
    rw [DEV_DEVICE_eq (by omega), DEV_DEVICE_eq (by omega)]
    omega
  unfold inserted call
  by_cases hkind : (!S_ISCHR e.mode && !S_ISDIR e.mode) = true
  · simp only [Bool.and_eq_true, Bool.not_eq_true'] at hkind
    simp [hkind]
  · have hor : S_ISCHR e.mode = true ∨ S_ISDIR e.mode = true := by
      cases hchr : S_ISCHR e.mode with
      | true => exact .inl rfl
      | false =>
        cases hdir : S_ISDIR e.mode with
        | true => exact .inr rfl
        | false => simp [hchr, hdir] at hkind
    rw [if_neg hkind, if_neg hkind]
    cases reverse with
    | true =>
      simp only [Bool.not_true, Bool.false_eq_true, if_false, if_true, CpioInserted.mk.injEq,
        true_and, and_true, hor, forall_const]
      rw [eq_comm, hdev]
    | false =>
      simp only [Bool.not_false, Bool.false_eq_true, if_false, if_true, CpioInserted.mk.injEq,
        true_and, and_true, hor, forall_const]
      exact hdev

theorem cpioImage_length (reverse reverse' : Bool) (es : List CpioEntry) (trailer : CpioEntry) :
    (cpioImage reverse es trailer).length = (cpioImage reverse' es trailer).length := by
  unfold cpioImage
  rw [List.length_append, List.length_append, List.length_flatMap, List.length_flatMap]
  simp only [CpioEntry.encode_length]

/-- An archive and its swapped form insert the same when the two bytes of the device are
the same in every entry that is a directory or a character device. -/
theorem cpioInserts_swap_iff {mem mem' : ByteMem} {reverse : Bool} {start rootfsEnd : Nat}
    {es : List CpioEntry} {trailer : CpioEntry} (htrailer : trailer.name = TRAILER)
    (hnames : ∀ e ∈ es, e.name ≠ TRAILER) (hat : BytesAt mem start (cpioImage reverse es trailer))
    (hat' : BytesAt mem' start (cpioImage (!reverse) es trailer))
    (hend : start + (cpioImage reverse es trailer).length ≤ rootfsEnd)
    (hword : rootfsEnd ≤ WORD_RANGE) : SameInserts mem mem' start rootfsEnd ↔
      ∀ e ∈ es, S_ISCHR e.mode ∨ S_ISDIR e.mode → e.rdev / 256 = e.rdev % 256 := by
  have hend' : start + (cpioImage (!reverse) es trailer).length ≤ rootfsEnd := by
    rw [cpioImage_length _ reverse]
    exact hend
  have hiff : es.map (CpioEntry.inserted (!reverse)) = es.map (CpioEntry.inserted reverse) ↔
      ∀ e ∈ es, S_ISCHR e.mode ∨ S_ISDIR e.mode → e.rdev / 256 = e.rdev % 256 := by
    rw [List.map_inj_left]
    exact forall₂_congr (fun e _ => e.inserted_eq_iff reverse)
  rw [← hiff]
  constructor
  · intro hsame
    rcases hsame with ⟨r, ⟨n, hn⟩, n', hn'⟩
    -- a result in a few rounds is the result in enough rounds
    have hr := cpioInserts_image htrailer hnames hat hend hword
      (show es.length < n + (es.length + 1) by omega)
    have hr' := cpioInserts_image htrailer hnames hat' hend' hword
      (show es.length < n' + (es.length + 1) by omega)
    have hmono := (cpioLoop_mono hn (es.length + 1)).symm.trans hr
    have hmono' := (cpioLoop_mono hn' (es.length + 1)).symm.trans hr'
    have heq := Option.some.inj (Option.some.inj (hmono'.symm.trans hmono))
    exact congrArg Prod.fst heq
  · intro heq
    refine ⟨(es.map (CpioEntry.inserted reverse), 0), ⟨es.length + 1, ?_⟩, es.length + 1, ?_⟩
    · exact cpioInserts_image htrailer hnames hat hend hword (Nat.lt_succ_self _)
    · rw [← heq]
      exact cpioInserts_image htrailer hnames hat' hend' hword (Nat.lt_succ_self _)

def cpioEntryOf (mode rdev : Nat) (name : List UInt8) (hmode : mode < 65536)
    (hrdev : rdev < 65536) (hne : name ≠ []) (hnul : 0 ∉ name) (hlt : name.length + 1 < 65536) :
    CpioEntry where
  dev := 0
  ino := 0
  mode := mode
  uid := 0
  gid := 0
  nlink := 1
  rdev := rdev
  mtime1 := 0
  mtime2 := 0
  name := name
  body := []
  mode_lt := hmode
  rdev_lt := hrdev
  name_ne := hne
  name_nul := hnul
  name_lt := hlt
  body_lt := by decide
  body_nil := fun _ => rfl

def cpioTrailer : CpioEntry :=
  cpioEntryOf 0 0 TRAILER (by decide) (by decide) (by decide) (by decide) (by decide)

/-- The device `tty`, with the numbers that are given. -/
def cpioTty (rdev : Fin 65536) : CpioEntry :=
  cpioEntryOf S_IFCHR rdev.val [0x74, 0x74, 0x79] (by decide) rdev.isLt (by decide) (by decide)
    (by decide)

def ttyMem (rdev : Fin 65536) (reverse : Bool) : ByteMem :=
  writeBytes (fun _ => 0) 0 (cpioImage reverse [cpioTty rdev] cpioTrailer)

theorem ttyMem_bytesAt (rdev : Fin 65536) (reverse : Bool) :
    BytesAt (ttyMem rdev reverse) 0 (cpioImage reverse [cpioTty rdev] cpioTrailer) :=
  readBytes_writeBytes _ _ _

theorem cpioTty_name (rdev : Fin 65536) : ∀ e ∈ [cpioTty rdev], e.name ≠ TRAILER := by
  intro e he
  rw [List.mem_singleton.mp he]
  exact (by decide : [0x74, 0x74, 0x79] ≠ TRAILER)

theorem ttyImage_length (rdev : Fin 65536) (reverse : Bool) :
    (cpioImage reverse [cpioTty rdev] cpioTrailer).length = 68 := by
  unfold cpioImage
  rw [List.flatMap_cons, List.flatMap_nil, List.append_nil, List.length_append,
    CpioEntry.encode_length, CpioEntry.encode_length]
  simp [cpioTty, cpioTrailer, cpioEntryOf, padded, TRAILER, SIZEOF_HD_BCPIO]

theorem cpioInserts_swap_equal : SameInserts (ttyMem 1028 false) (ttyMem 1028 true) 0 72 := by
  apply (cpioInserts_swap_iff rfl (cpioTty_name 1028)
    (ttyMem_bytesAt 1028 false) (ttyMem_bytesAt 1028 true) _ (by decide)).mpr
  · decide
  · rw [ttyImage_length]
    decide

/-- The device with major number 4 and minor number 0 has major number 0 and minor number
4 in the swapped archive. -/
theorem cpioInserts_swap_tty : cpioInserts (ttyMem 1024 false) 0 72 2 =
        some (some ([⟨[0x74, 0x74, 0x79], S_IFCHR, DEV_DEVICE 4 0, []⟩], 0)) ∧
      cpioInserts (ttyMem 1024 true) 0 72 2 =
        some (some ([⟨[0x74, 0x74, 0x79], S_IFCHR, DEV_DEVICE 0 4, []⟩], 0)) ∧
      ¬SameInserts (ttyMem 1024 false) (ttyMem 1024 true) 0 72 := by
  have hinserts : ∀ reverse n, 1 < n → cpioInserts (ttyMem 1024 reverse) 0 72 n =
      some (some ([(cpioTty 1024).inserted reverse], 0)) := by
    intro reverse n hn
    apply cpioInserts_image rfl (cpioTty_name 1024) (ttyMem_bytesAt 1024 reverse) _ (by decide) hn
    rw [ttyImage_length]
    decide
  refine ⟨hinserts false 2 (by decide), hinserts true 2 (by decide), ?_⟩
  intro hsame
  rcases hsame with ⟨r, ⟨n, hn⟩, n', hn'⟩
  have hr := (cpioLoop_mono hn 2).symm.trans (hinserts false (n + 2) (by omega))
  have hr' := (cpioLoop_mono hn' 2).symm.trans (hinserts true (n' + 2) (by omega))
  exact absurd (Option.some.inj (Option.some.inj (hr.symm.trans hr'))) (by decide)

end Koowaldah
