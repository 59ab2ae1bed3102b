import Toutatis.Strings.Compare
import Toutatis.System.Initrd

/-!
# The table of the initial ramdisk

The header part of an image, as `make_initrd.c` writes it, read through `initrd_header_t` and
`initrd_file_header_t` as `initrd_init` does it. The first structure is packed, with `nfiles` at 7;
the second one is padded in front of `offset`, which both sides place at 132. The table starts at
the odd address behind the first structure.

The length of a file has 32 bits in the table, whatever the size of the file.

## Key results

- `fileHeader_of_headerLoop`: the header of each file is where the reader looks for it
- `initrd_table_read`: what the reader finds in the table
-/

namespace Toutatis

open ByteMem Strings

/-- The header part of an image. -/
def initrdTable (junk : Nat → Nat → UInt8) (files : List InitrdFile) : List UInt8 :=
  initrdMagic ++ le32 files.length ++ headerLoop junk 0 (fileHeaderSize * maxFiles + 4) files

/-- An image is its header part and the contents of the files. -/
theorem makeInitrd_eq (junk : Nat → Nat → UInt8) (files : List InitrdFile) :
    makeInitrd junk files = initrdTable junk files ++ files.flatMap fileData := rfl

/-- `"INITRD"` without the zero. -/
def initrdName : List UInt8 := [0x49, 0x4e, 0x49, 0x54, 0x52, 0x44]

/-- What `initrd_init` and `initrd_parse` look up: the number of files, and the magic byte, the name
    and the length of each. -/
structure TableRead (m : Mem) (location : Nat) (files : List InitrdFile) : Prop where
  nfiles : load32 m (location + 7) = files.length
  magic : ∀ i f, files[i]? = some f → m (fileHeaderAddr location i) = 0xbf
  name : ∀ i f, files[i]? = some f → Text m (fileHeaderAddr location i + 1) f.name
  length : ∀ i f, files[i]? = some f →
    load32 m (fileHeaderAddr location i + 136) = f.data.length % 2 ^ 32

section

variable {m : Mem} {junk : Nat → Nat → UInt8} {files : List InitrdFile}
  {location i j off offset length a : Nat} {f : InitrdFile} {name : List UInt8}
  {junk' : Nat → UInt8}

/-- The header of a file in the table. -/
theorem fileHeader_of_headerLoop
    (hm : Holds m (fileHeaderAddr location i) (headerLoop junk i off files))
    (hj : files[j]? = some f) :
    ∃ off', Holds m (fileHeaderAddr location (i + j))
      (fileHeader (junk (i + j)) f.name off' f.data.length) := by
  induction files generalizing i j off with
  | nil => exact absurd hj (by simp)
  | cons g files ih =>
    rw [headerLoop, holds_append, length_fileHeader] at hm
    cases j with
    | zero =>
      obtain rfl : g = f := Option.some.inj hj
      exact ⟨off, hm.1⟩
    | succ j =>
      -- the headers lie one behind the other, 140 bytes each
      have hnext : fileHeaderAddr location i + 140 = fileHeaderAddr location (i + 1) := by
        simp only [fileHeaderAddr, fileHeaderSize]
        omega
      rw [hnext] at hm
      have hfound := ih hm.2 hj
      rw [Nat.add_assoc, Nat.add_comm 1] at hfound
      exact hfound

/-- A header starts with its magic byte. -/
theorem magic_of_fileHeader (h : Holds m a (fileHeader junk' name offset length)) : m a = 0xbf :=
  byte_of_fileHeader h (show 0 < 140 by omega)

/-- The headers of the files are read back, whatever their offsets are. -/
theorem tableRead_of_headers
    (hm : Holds m (fileHeaderAddr location 0) (headerLoop junk 0 off files))
    (hn : load32 m (location + 7) = files.length) (hnamed : ∀ f ∈ files, f.Named)
    (hfit : fileHeaderAddr location files.length ≤ 2 ^ 32) : TableRead m location files := by
  have hheader : ∀ i f, files[i]? = some f → ∃ off', Holds m (fileHeaderAddr location i)
      (fileHeader (junk i) f.name off' f.data.length) := by
    intro i f hi
    have hfound := fileHeader_of_headerLoop hm hi
    rw [Nat.zero_add] at hfound
    exact hfound
  refine ⟨hn, fun i f hi => ?_, fun i f hi => ?_, fun i f hi => ?_⟩
  · obtain ⟨off', h⟩ := hheader i f hi
    exact magic_of_fileHeader h
  · -- the name ends inside of its record, which ends inside of the address space
    obtain ⟨off', h⟩ := hheader i f hi
    have hname := hnamed f (List.mem_of_getElem? hi)
    have hlt := (List.getElem?_eq_some_iff.mp hi).1
    refine ⟨name_of_fileHeader h hname.short, hname.nonzero, ?_⟩
    have hshort := hname.short
    simp only [fileHeaderAddr, initrdHeaderSize, fileHeaderSize] at hfit ⊢
    omega
  · obtain ⟨off', h⟩ := hheader i f hi
    exact (words_of_fileHeader h).2.load32

/-- **The table of an image.** With the image in memory and the literal of the comparison at `lit`,
    the magic comparison of `initrd_init` passes and the reader finds the files. -/
theorem initrd_table_read {lit : Nat} (hn : files.length ≤ maxFiles)
    (hnamed : ∀ f ∈ files, f.Named) (hfit : fileHeaderAddr location files.length ≤ 2 ^ 32)
    (hm : Holds m location (initrdTable junk files)) (hlit : Text m lit initrdName) :
    strcmp m location lit = some 0 ∧ TableRead m location files := by
  unfold maxFiles at hn
  unfold initrdTable at hm
  rw [holds_append, holds_append] at hm
  obtain ⟨⟨hmagic, hcount⟩, htable⟩ := hm
  have hstart : location + (initrdMagic ++ le32 files.length).length = fileHeaderAddr location 0 :=
    rfl
  rw [hstart] at htable
  have hroom : location + initrdName.length < 2 ^ 32 := by
    simp only [fileHeaderAddr, initrdHeaderSize, fileHeaderSize] at hfit
    show location + 6 < 2 ^ 32
    omega
  -- the 7 bytes of the magic are the string that they are compared with
  have hname : Text m location initrdName := ⟨hmagic, by simp [initrdName], hroom⟩
  have hcount' : load32 m (location + 7) = files.length :=
    (Holds.load32 hcount).trans (Nat.mod_eq_of_lt (by omega))
  exact ⟨strcmp_text hname hlit, tableRead_of_headers htable hcount' hnamed hfit⟩

end

/-- Memory that holds `l` at `a` and the literal at 0. -/
def imageMem (a : Nat) (l : List UInt8) : Mem :=
  fun x => if a ≤ x then l.getD (x - a) 0 else initrdName.getD x 0

/-- The image of a test lies in its memory. -/
theorem holds_imageMem (a : Nat) (l : List UInt8) : Holds (imageMem a l) a l := by
  intro k b hk
  unfold imageMem
  rw [if_pos (Nat.le_add_right a k), Nat.add_sub_cancel_left, List.getD_eq_getElem?_getD, hk,
    Option.getD_some]

/-- The table of an image with two files. -/
theorem initrd_table_read_two :
    ∃ m, strcmp m 0xc0200000 0 = some 0 ∧
      TableRead m 0xc0200000 [⟨[0x61], [1, 2, 3]⟩, ⟨[0x62, 0x63], []⟩] := by
  -- the literal of initrd_init lies at address 0, below the image
  have hlit : Text (imageMem 0xc0200000
      (initrdTable (fun _ _ => 7) [⟨[0x61], [1, 2, 3]⟩, ⟨[0x62, 0x63], []⟩])) 0 initrdName := by
    refine ⟨fun k b hk => ?_, by simp [initrdName], by decide⟩
    have hlt : k < 7 := (List.getElem?_eq_some_iff.mp hk).1
    unfold imageMem
    rw [if_neg (by omega), Nat.zero_add]
    interval_cases k <;> exact Option.some.inj hk
  have hnamed : ∀ f ∈ ([⟨[0x61], [1, 2, 3]⟩, ⟨[0x62, 0x63], []⟩] : List InitrdFile), f.Named := by
    intro f hf
    simp only [List.mem_cons, List.not_mem_nil, or_false] at hf
    cases hf with
    | inl h =>
      rw [h]
      exact ⟨by decide, by simp⟩
    | inr h =>
      rw [h]
      exact ⟨by decide, by simp⟩
  exact ⟨_, initrd_table_read (by decide) hnamed (by decide) (holds_imageMem _ _) hlit⟩

/-- A file of `n` zeros. -/
def zeroFile (n : Nat) : InitrdFile := ⟨[0x61], List.replicate n 0⟩

/-- A file of zeros of a given length. -/
theorem length_zeroFile (n : Nat) : (zeroFile n).data.length = n := List.length_replicate

/-- Its name can be written. -/
theorem zeroFile_named (n : Nat) : (zeroFile n).Named := by
  have hname : (zeroFile n).name = [0x61] := rfl
  constructor
  · rw [hname]
    decide
  · rw [hname]
    simp

/-- Its length as the kernel finds it. -/
theorem zeroFile_read {m : Mem} {n : Nat}
    (hm : Holds m 0xc0200000 (initrdTable (fun _ _ => 0) [zeroFile n])) :
    load32 m (fileHeaderAddr 0xc0200000 0 + 136) = n % 2 ^ 32 := by
  unfold initrdTable at hm
  rw [holds_append] at hm
  obtain ⟨off', h⟩ := @fileHeader_of_headerLoop m (fun _ _ => 0) [zeroFile n] 0xc0200000 0 0 _
    (zeroFile n) hm.2 rfl
  have hload := (words_of_fileHeader h).2.load32
  rw [length_zeroFile] at hload
  exact hload

/-- The table gives the length 0 for a file of 4 GiB. -/
theorem initrd_length_truncated :
    (zeroFile (2 ^ 32)).Named ∧ (zeroFile (2 ^ 32)).data.length = 2 ^ 32 ∧
      ∀ m, Holds m 0xc0200000 (initrdTable (fun _ _ => 0) [zeroFile (2 ^ 32)]) →
        load32 m (fileHeaderAddr 0xc0200000 0 + 136) = 0 := by
  refine ⟨zeroFile_named _, length_zeroFile _, fun m hm => ?_⟩
  rw [zeroFile_read hm, Nat.mod_self]

end Toutatis
