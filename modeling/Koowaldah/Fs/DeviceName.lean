import Koowaldah.Cstr
import Koowaldah.Fs.Readdir

/-!
# Devices by name

`get_device_by_name` of `kernel/fs/device.c`.  It compares `d_name` with `kstrncmp`, which
does not stop at a NUL and returns the difference of the bytes behind the last ones that it
compared.

`SameBytes n a b` says that two strings have the same first `n + 1` bytes in memory.  For
strings that are the same for `strncmp` this is what `kstrncmp` asks for in addition
(`kstrncmp_of_take_ne` is the other case), and `getDeviceByName_eq_some` says that a device
is found by its bytes only.
-/

namespace Koowaldah

open CStr

variable {n : Nat} {a b : CStr}

/-- The first `n + 1` bytes are there, and they are the same. -/
def SameBytes (n : Nat) (a b : CStr) : Prop :=
  n < a.mem.length ∧ n < b.mem.length ∧ a.mem.take (n + 1) = b.mem.take (n + 1)

/-- `struct device`, from `d_name` on.  The name is a string in an array, and `d_dev` stands
behind the array. -/
structure NamedDevice where
  dName : CStr
  dName_lt : dName.chars.length < DEVNAME_MAX
  dDev_mem : DEVNAME_MAX < dName.mem.length

/-- `get_device_by_name`; `some none` is `NULL`. -/
def getDeviceByName : List NamedDevice → Ptr → Option (Option NamedDevice)
  | [], _ => some none
  | device :: devices, name =>
    match Ptr.kstrncmp DEVNAME_MAX device.dName.mem name with
    | none => none
    | some r => if r = 0 then some (some device) else getDeviceByName devices name

/-- The device that the name stands for. -/
def deviceNamed (devices : List NamedDevice) (name : CStr) : Option NamedDevice :=
  devices.find? (fun device => device.dName.chars = name.chars)

theorem kstrncmp_zero_iff_sameBytes : Ptr.kstrncmp n a.mem b.mem = some 0 ↔ SameBytes n a b :=
  Ptr.kstrncmp_eq_zero_iff

theorem chars_take_of_mem_eq {p a' : List UInt8} {x : UInt8} (hp : 0 ∉ p)
    (ha : a.mem = p ++ x :: a') (hn : n ≤ p.length) : a.chars.take n = p.take n := by
  have hle := length_le_of_mem_eq hp ha
  have htake := congrArg (List.take n) ha
  unfold CStr.mem at htake
  rwa [List.take_append_of_le_length (Nat.le_trans hn hle), List.take_append_of_le_length hn]
    at htake

theorem kstrncmp_of_take_ne (h : a.chars.take n ≠ b.chars.take n) :
    ∃ r, r ≠ 0 ∧ Ptr.kstrncmp n a.mem b.mem = some r := by
  obtain ⟨x, y, hxy, p, a', b', hp, ha, hb⟩ :=
    exists_firstDiff (fun heq => h (congrArg (List.take n) heq))
  have hlt : p.length < n := by
    by_contra hge
    apply h
    rw [chars_take_of_mem_eq hp ha (Nat.le_of_not_lt hge),
      chars_take_of_mem_eq hp hb (Nat.le_of_not_lt hge)]
  refine ⟨charDiff x y, fun hzero => hxy (charDiff_eq_zero_iff.mp hzero), ?_⟩
  rw [ha, hb]
  exact Ptr.kstrncmp_append_of_ne hxy (Nat.le_of_lt hlt) a' b'

theorem kstrncmp_strncmp_iff :
    (∃ r, Ptr.kstrncmp n a.mem b.mem = some r ∧ (r = 0 ↔ a.chars.take n = b.chars.take n)) ↔
      (a.chars.take n = b.chars.take n → SameBytes n a b) := by
  constructor
  · intro h heq
    obtain ⟨r, hr, hzero⟩ := h
    rw [hzero.mpr heq] at hr
    exact kstrncmp_zero_iff_sameBytes.mp hr
  · intro h
    by_cases heq : a.chars.take n = b.chars.take n
    · exact ⟨0, kstrncmp_zero_iff_sameBytes.mpr (h heq), iff_of_true rfl heq⟩
    · obtain ⟨r, hne, hr⟩ := kstrncmp_of_take_ne heq
      exact ⟨r, hr, iff_of_false hne heq⟩

/-! ## The list of devices -/

theorem getDeviceByName_eq_some {devices : List NamedDevice} {name : CStr}
    {device : NamedDevice} (h : getDeviceByName devices name.mem = some (some device)) :
    SameBytes DEVNAME_MAX device.dName name := by
  induction devices with
  | nil => cases h
  | cons d devices ih =>
    rw [getDeviceByName] at h
    split at h
    · cases h
    · rename_i r hr
      split at h
      · rename_i hzero
        cases h
        rw [hzero] at hr
        exact kstrncmp_zero_iff_sameBytes.mp hr
      · exact ih h

theorem NamedDevice.take_ne {device : NamedDevice} {name : CStr}
    (h : device.dName.chars ≠ name.chars) :
    device.dName.chars.take DEVNAME_MAX ≠ name.chars.take DEVNAME_MAX := by
  intro htake
  have hlt := device.dName_lt
  rw [List.take_of_length_le (Nat.le_of_lt hlt)] at htake
  have hlen := congrArg List.length htake
  rw [List.length_take] at hlen
  rw [List.take_of_length_le (by omega)] at htake
  exact h htake

theorem getDeviceByName_iff (devices : List NamedDevice) (name : CStr) :
    getDeviceByName devices name.mem = some (deviceNamed devices name) ↔
      ∀ device, deviceNamed devices name = some device →
        SameBytes DEVNAME_MAX device.dName name := by
  unfold deviceNamed
  induction devices with
  | nil => exact iff_of_true rfl nofun
  | cons d devices ih =>
    by_cases heq : d.dName.chars = name.chars
    · rw [List.find?_cons_of_pos (by simpa using heq)]
      constructor
      · intro h device hdevice
        rw [Option.some.inj hdevice] at h
        exact getDeviceByName_eq_some h
      · intro h
        rw [getDeviceByName, kstrncmp_zero_iff_sameBytes.mpr (h d rfl)]
        rfl
    · obtain ⟨r, hne, hr⟩ := kstrncmp_of_take_ne (d.take_ne heq)
      rw [List.find?_cons_of_neg (by simpa using heq), getDeviceByName, hr]
      show (if r = 0 then _ else _) = _ ↔ _
      rw [if_neg hne]
      exact ih

/-- `kstrncmp` tells strings apart as `strncmp` does, unless they are the same for `strncmp`
and have different bytes up to the one at `n`.  A device is found by its name if the bytes
behind the name are those behind the `d_name` of the device. -/
theorem kstrncmp_and_getDeviceByName_iff (a b : CStr) (n : Nat) (devices : List NamedDevice)
    (name : CStr) :
    ((∃ r, Ptr.kstrncmp n a.mem b.mem = some r ∧ (r = 0 ↔ a.chars.take n = b.chars.take n)) ↔
        (a.chars.take n = b.chars.take n → SameBytes n a b)) ∧
      (getDeviceByName devices name.mem = some (deviceNamed devices name) ↔
        ∀ device, deviceNamed devices name = some device →
          SameBytes DEVNAME_MAX device.dName name) :=
  ⟨kstrncmp_strncmp_iff, getDeviceByName_iff devices name⟩

/-- `"ab"` and `"ac"` have the same first character, and `kstrncmp` of one character is not 0.
A device `"a"` is not found when the name `"a"` is followed by another byte than zero. -/
theorem kstrncmp_and_getDeviceByName_differ :
    Ptr.kstrncmp 1 (mem ⟨[0x61, 0x62], by decide, []⟩) (mem ⟨[0x61, 0x63], by decide, []⟩) =
        some (-1) ∧
      (getDeviceByName
        [⟨⟨[0x61], by decide, List.replicate 30 0 ++ [1]⟩, by decide, by decide⟩]
        (mem ⟨[0x61], by decide, [1]⟩)).map Option.isSome = some false := by
  constructor
  · decide
  · decide

end Koowaldah
