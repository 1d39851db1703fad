import Mathlib.Data.Nat.Count
import OSForReal.Framework.Refinement
import OSForReal.TagFS.FuseDriver

/-!
# What the FUSE driver is for

A `Directory` is a table of files, each with its name, its bytes and whether it
holds a sector. `Directory.call` says what each call of the driver is to return
and to leave, for the calls that keep the contract `Directory.Ok`: no sector,
no FAT and no bytes of an image occur in it. `fuseDriver` is the driver itself.
-/

namespace OSForReal.Proof.TagFS

open Framework
open Framework.Bytes
open OSForReal.TagFS

/-! ## Calls -/

/-- A call of the driver; `name` is what follows the `/` of a path. -/
inductive FuseCall where
  | getattr (name : CStr)
  | readdir (name : CStr)
  | read (name : CStr) (size offset : Nat)
  | mknod (name : CStr) (regular : Bool)
  | write (name : CStr) (data : List UInt8) (offset : Nat)
  | unlink (name : CStr)

/-- What a call shows to its caller. -/
inductive FuseResult where
  | status (r : Int)
  | attr (r : Int) (st : Option Stat)
  | bytes (r : Int) (data : List UInt8)
  | listing (entries : List (Option CStr × Stat))
deriving DecidableEq

/-- A call on an image. The `stat` that `tagfs_getattr` gets is zero, and it is
looked at when the call succeeds; the names that `filler` gets are read in
their 24 bytes. -/
def fuseCall (fuel : Nat) (img : Bytes) : FuseCall → Res (FuseResult × Bytes)
  | .getattr name =>
    let (r, st) := tagfsGetattr img name {}
    .ok (.attr r (if r = 0 then some st else none), img)
  | .readdir name => .ok (.listing ((tagfsReaddir img name).map fun (a, st) => (strAt img a 24, st)), img)
  | .read name size offset =>
    let (r, buf) := tagfsRead img name (fun _ => 0) size offset
    .ok (.bytes r ((List.range r.toNat).map buf), img)
  | .mknod name regular =>
    let (r, img) := tagfsMknod img name regular
    .ok (.status r, img)
  | .write name data offset =>
    let (r, img) := tagfsWrite img name (fun k => data.getD k 0) data.length offset
    .ok (.status r, img)
  | .unlink name => do
    let (r, img) ← tagfsUnlinkCall fuel img name
    .ok (.status r, img)

theorem fuseCall_mknod (fuel : Nat) (img : Bytes) (name : CStr) (regular : Bool) :
    fuseCall fuel img (.mknod name regular) =
      .ok (.status (tagfsMknod img name regular).1, (tagfsMknod img name regular).2) := rfl

theorem fuseCall_write (fuel : Nat) (img : Bytes) (name : CStr) (data : List UInt8) (offset : Nat) :
    fuseCall fuel img (.write name data offset) =
      .ok (.status (tagfsWrite img name (fun k => data.getD k 0) data.length offset).1,
        (tagfsWrite img name (fun k => data.getD k 0) data.length offset).2) := rfl

/-- The driver. -/
def fuseDriver : Object Bytes FuseCall FuseResult where
  call img c r img' := ∃ fuel, fuseCall fuel img c = .ok (r, img')

/-! ## Directories -/

/-- What there is room for. -/
structure Volume where
  entries : Nat
  sectors : Nat
  sectorSize : Nat

/-- A file: its name, its bytes, and whether it holds a sector. -/
structure File where
  name : CStr
  bytes : List UInt8
  placed : Bool

/-- A directory: the file in each slot. -/
abbrev Directory := Nat → Option File

/-- The bytes after a write at `offset`. -/
def overwrite (bytes : List UInt8) (offset : Nat) (data : List UInt8) : List UInt8 :=
  bytes.take offset ++ data ++ bytes.drop (offset + data.length)

theorem getD_take {l : List UInt8} {k n : Nat} (h : k < n) : (l.take n).getD k 0 = l.getD k 0 := by
  rw [List.getD_eq_getElem?_getD, List.getElem?_take_of_lt h, List.getD_eq_getElem?_getD]

theorem length_overwrite {bytes data : List UInt8} {offset : Nat} (h : offset ≤ bytes.length) :
    (overwrite bytes offset data).length = max bytes.length (offset + data.length) := by
  simp only [overwrite, List.length_append, List.length_take, List.length_drop]
  omega

theorem getD_overwrite {bytes data : List UInt8} {offset : Nat} (h : offset ≤ bytes.length) (k : Nat) :
    (overwrite bytes offset data).getD k 0 =
      if offset ≤ k ∧ k < offset + data.length then data.getD (k - offset) 0 else bytes.getD k 0 := by
  have hlen : (bytes.take offset).length = offset := List.length_take_of_le h
  simp only [overwrite, List.getD_eq_getElem?_getD, List.append_assoc]
  rcases Nat.lt_or_ge k offset with hlow | hlow
  · rw [if_neg (by omega), List.getElem?_append_left (by omega), List.getElem?_take_of_lt hlow]
  · rw [List.getElem?_append_right (by omega), hlen]
    rcases Nat.lt_or_ge k (offset + data.length) with hin | hout
    · rw [if_pos ⟨hlow, hin⟩, List.getElem?_append_left (by omega)]
    · rw [if_neg (by omega), List.getElem?_append_right (by omega), List.getElem?_drop]
      congr 2
      omega

namespace Directory

/-- No files. -/
def empty : Directory := fun _ => none

/-- The slot holds a file of the name. -/
def hasName (name : CStr) (f : Option File) : Bool := f.any fun f => f.name = name

variable (V : Volume) (d : Directory)

/-- The first file of a name, with its slot. -/
def find (name : CStr) : Option (Nat × File) :=
  let i := scan (fun i => hasName name (d i)) V.entries 0
  if i < V.entries then (d i).map fun f => (i, f) else none

variable {V d} in
theorem find_eq_some {name : CStr} {i : Nat} {f : File} (h : scan (fun i => hasName name (d i)) V.entries 0 = i)
    (hi : i < V.entries) (hd : d i = some f) : find V d name = some (i, f) := by
  subst h
  simp only [find]
  rw [if_pos hi, hd]
  rfl

variable {V d} in
theorem find_eq_none {name : CStr} (h : ¬ scan (fun i => hasName name (d i)) V.entries 0 < V.entries) :
    find V d name = none := by
  simp only [find]
  rw [if_neg h]

/-- The files, in order. -/
def files : List (Nat × File) := (List.range V.entries).filterMap fun i => (d i).map fun f => (i, f)

/-- The first slot without a file. -/
def freeSlot : Nat := scan (fun i => (d i).isNone) V.entries 0

/-- Every sector is held by a file. -/
def Full : Prop := V.sectors ≤ Nat.count (fun i => (d i).any (·.placed) = true) V.entries

instance : Decidable (Full V d) := inferInstanceAs (Decidable (_ ≤ _))

/-- The attributes of a file. -/
def fileStat (i : Nat) (f : File) : Stat where
  ino := i + 1
  mode := fileMode
  size := f.bytes.length
  blksize := 512
  blocks := ceilDiv f.bytes.length 512

/-- The attributes of the root: the sizes of all files. -/
def rootStat : Stat where
  mode := dirMode
  size := ((files V d).map fun p => p.2.bytes.length).sum
  blksize := 512
  blocks := ((files V d).map fun p => ceilDiv p.2.bytes.length 512).sum

/-- What a write of `data` to the file `f` in slot `i` returns and leaves. A
file that fills its sector takes no more; when no sector is left, a new file
takes nothing, and another one only what it already has bytes for. -/
def write (i : Nat) (f : File) (data : List UInt8) (offset : Nat) : Int × Directory :=
  if f.placed = false ∧ Full V d then (0, d)
  else if V.sectorSize ≤ offset then (-ebadfd, d)
  else if offset + data.length ≤ V.sectorSize then
    (data.length, Function.update d i (some { f with bytes := overwrite f.bytes offset data, placed := true }))
  else
    let data := data.take (V.sectorSize - offset)
    (data.length, Function.update d i (some { f with bytes := (overwrite f.bytes offset data).take f.bytes.length }))

/-- What the creation of a file returns. -/
def mknodStatus (name : CStr) (regular : Bool) : Int :=
  if regular = false then -38
  else if 24 ≤ name.strlen then -enametoolong
  else if freeSlot V d = V.entries then -enospc
  else 0

/-- What a call returns and leaves. -/
def call : FuseCall → FuseResult × Directory
  | .getattr name =>
    if name.strlen = 0 then (.attr 0 (some (rootStat V d)), d)
    else
      match find V d name with
      | none => (.attr (-enoent) none, d)
      | some (i, f) => (.attr 0 (some (fileStat i f)), d)
  | .readdir name =>
    let entries := (files V d).map fun (i, f) =>
      (some f.name, { ino := i + 1, size := f.bytes.length, mode := fileMode : Stat })
    (.listing (if name.strlen = 0 then entries else []), d)
  | .read name size offset =>
    match find V d name with
    | none => (.bytes (-enoent) [], d)
    | some (_, f) =>
      let data := (f.bytes.drop offset).take size
      (.bytes data.length data, d)
  | .mknod name regular =>
    let r := mknodStatus V d name regular
    (.status r, if r = 0 then Function.update d (freeSlot V d) (some { name, bytes := [], placed := false }) else d)
  | .write name data offset =>
    match find V d name with
    | none => (.status (-enoent), d)
    | some (i, f) =>
      let (r, d) := write V d i f data offset
      (.status r, d)
  | .unlink name =>
    match find V d name with
    | none => (.status (-enoent), d)
    | some (i, _) => (.status 0, Function.update d i none)

section

variable {V d} {name : CStr} {i : Nat} {f : File} {data : List UInt8} {offset : Nat}

theorem call_write_none (data : List UInt8) (offset : Nat) (h : find V d name = none) :
    call V d (.write name data offset) = (.status (-enoent), d) := by
  rw [call, h]

theorem call_write_some (data : List UInt8) (offset : Nat) (h : find V d name = some (i, f)) :
    call V d (.write name data offset) =
      (.status (write V d i f data offset).1, (write V d i f data offset).2) := by
  rw [call, h]

theorem write_noSpace (hp : f.placed = false) (hfull : Full V d) : write V d i f data offset = (0, d) :=
  if_pos ⟨hp, hfull⟩

theorem write_end (hp : f.placed = true) (h : V.sectorSize ≤ offset) : write V d i f data offset = (-ebadfd, d) := by
  rw [write, if_neg (by simp [hp]), if_pos h]

theorem write_fits (hp : ¬ (f.placed = false ∧ Full V d)) (h : offset < V.sectorSize)
    (hfit : offset + data.length ≤ V.sectorSize) : write V d i f data offset =
      ((data.length : Int),
        Function.update d i (some { f with bytes := overwrite f.bytes offset data, placed := true })) := by
  rw [write, if_neg hp, if_neg (Nat.not_le_of_lt h), if_pos hfit]

theorem write_short (hp : f.placed = true) (h : offset < V.sectorSize) (hlong : V.sectorSize < offset + data.length) :
    write V d i f data offset = (((V.sectorSize - offset : Nat) : Int), Function.update d i (some { f with
      bytes := (overwrite f.bytes offset (data.take (V.sectorSize - offset))).take f.bytes.length })) := by
  have hlen : (data.take (V.sectorSize - offset)).length = V.sectorSize - offset := List.length_take_of_le (by omega)
  rw [write, if_neg (by simp [hp]), if_neg (Nat.not_le_of_lt h), if_neg (Nat.not_le_of_lt hlong)]
  simp only [hlen]

end

/-- The contract. The root is not opened; a read lies in the file or begins
after its end; a write begins in the file or at its end, and needs no sector
but the first, or finds none; what is unlinked exists. -/
def Ok : FuseCall → Prop
  | .getattr _ => True
  | .readdir _ => True
  | .read name size offset => name.strlen ≠ 0 ∧
    ∀ p ∈ find V d name, offset + size ≤ p.2.bytes.length ∨ p.2.bytes.length ≤ offset
  | .mknod name _ => name.strlen ≠ 0
  | .write name data offset => name.strlen ≠ 0 ∧ ∀ p ∈ find V d name, offset ≤ p.2.bytes.length ∧
    (offset + data.length ≤ V.sectorSize ∨ Full V d ∨ V.sectorSize ≤ offset)
  | .unlink name => name.strlen ≠ 0 ∧ (find V d name).isSome

instance : ∀ c, Decidable (Ok V d c)
  | .getattr _ => inferInstanceAs (Decidable True)
  | .readdir _ => inferInstanceAs (Decidable True)
  | .read _ _ _ => inferInstanceAs (Decidable (_ ∧ _))
  | .mknod _ _ => inferInstanceAs (Decidable (_ ≠ _))
  | .write _ _ _ => inferInstanceAs (Decidable (_ ∧ _))
  | .unlink _ => inferInstanceAs (Decidable (_ ∧ _))

end Directory

end OSForReal.Proof.TagFS
