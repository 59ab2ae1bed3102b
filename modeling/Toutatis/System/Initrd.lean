import Toutatis.Console.Splice
import Toutatis.Paging.Frames

/-!
# The initial ramdisk

The two ends of one file format: `make_initrd.c`, which writes the image at build time, and
`initrd_init` and `initrd_parse` of `kernel/initrd.c`, which find the files in it after the
boot loader has put it into memory.

An image is a header of 11 bytes, one header of 140 bytes for each file, and the contents of
the files. The writer computes offsets as if there were always 64 file headers and only 4
bytes in front of them. So no offset is where the contents are.

The reader puts the name of each file behind a slash in a buffer of 128 bytes. The byte that
`sprintf` takes from behind its format counts too, so that a name may have 125 characters.

## Key results

- `sprintfName_eq`: the names that fit
- `parseLoop_spec`: what `initrd_parse` writes
- `roundTrip_iff_bytesAt`: all files are found when the contents as a whole are
- `round_trip_iff`: the images whose files are found
-/

namespace Toutatis

open ByteMem

/-! ## The writer -/

/-- A file: its name and its contents. -/
structure InitrdFile where
  name : List UInt8
  data : List UInt8

/-- `MAX_FILES`. -/
def maxFiles : Nat := 64

/-- `sizeof(struct initrd_header)`: `magic` at 0, `name` at 1, `offset` at 132, `length` at
    136. -/
def fileHeaderSize : Nat := 140

/-- A byte of a file header. What the writer does not set is what the stack held. -/
def headerByte (junk : Nat → UInt8) (name : List UInt8) (offset length k : Nat) : UInt8 :=
  if 136 ≤ k then UInt8.ofNat (length / 256 ^ (k - 136))
  else if 132 ≤ k then UInt8.ofNat (offset / 256 ^ (k - 132))
  else if k = 0 then 0xbf
  else if k ≤ name.length then name.getD (k - 1) 0
  else if k = name.length + 1 then 0
  else junk k

/-- A file header. -/
def fileHeader (junk : Nat → UInt8) (name : List UInt8) (offset length : Nat) : List UInt8 :=
  (List.range fileHeaderSize).map (headerByte junk name offset length)

/-- The file headers, from number `i` on; `off` is the offset of the next file. -/
def headerLoop (junk : Nat → Nat → UInt8) : (i off : Nat) → List InitrdFile → List UInt8
  | _, _, [] => []
  | i, off, f :: files =>
    fileHeader (junk i) f.name off f.data.length ++
      headerLoop junk (i + 1) (add32 off f.data.length) files

/-- The contents that are written: as many bytes as `length` says, which has 32 bits. -/
def fileData (f : InitrdFile) : List UInt8 := f.data.take (f.data.length % 2 ^ 32)

/-- `"INITRD"` with the zero at its end. -/
def initrdMagic : List UInt8 := [0x49, 0x4e, 0x49, 0x54, 0x52, 0x44, 0]

/-- `main` of `make_initrd.c`: the image. -/
def makeInitrd (junk : Nat → Nat → UInt8) (files : List InitrdFile) : List UInt8 :=
  initrdMagic ++ le32 files.length ++
    headerLoop junk 0 (fileHeaderSize * maxFiles + 4) files ++ files.flatMap fileData

/-! ## The reader -/

/-- `sizeof(initrd_header_t)`, which is packed. -/
def initrdHeaderSize : Nat := 11

/-- The address of `file_headers[i]`. -/
def fileHeaderAddr (location i : Nat) : Nat := location + initrdHeaderSize + fileHeaderSize * i

/-- `sprintf(name, "/%s", fileName)` into `char name[128]`, with the format at `fmt`: `none` when a
    byte behind `name` is overwritten. A string makes `sprintf` store 1024 bytes at most. -/
def sprintfName (m : Mem) (fmt name fileName : Nat) : Option Printer :=
  (vsprintf m fmt (fun _ => BitVec.ofNat 32 fileName) name).bind fun r =>
    if (List.range' 128 1024).any fun j => (r.out j).isSome then none else some r

/-- The loop of `initrd_parse`, which adds the location to the offsets; `none` when the fuel
    is used up or the stack behind `name` is overwritten. -/
def parseLoop (location fmt name : Nat) : (fuel i : Nat) → Mem → Option Mem
  | 0, _, _ => none
  | fuel + 1, i, m =>
    if i < load32 m (location + 7) then
      let offset := fileHeaderAddr location i + 132
      let m := store32 m offset (add32 (load32 m offset) location)
      (sprintfName m fmt name (fileHeaderAddr location i + 1)).bind fun _ =>
        parseLoop location fmt name fuel (i + 1) m
    else some m

/-- `initrd_parse`, with its literal `"/%s"` at `fmt` and `name` on the stack. -/
def initrdParse (m : Mem) (location fmt name : Nat) : Option Mem :=
  parseLoop location fmt name (2 ^ 32) 0 m

/-- The `length` bytes at `offset` of `file_headers[i]` are the contents of the file. -/
def Found (m : Mem) (location i : Nat) (f : InitrdFile) : Prop :=
  bytesAt m (load32 m (fileHeaderAddr location i + 132))
    (load32 m (fileHeaderAddr location i + 136)) = f.data

/-- The name of a file on the command line: it fits into `name` with its zero. -/
structure InitrdFile.Named (f : InitrdFile) : Prop where
  short : f.name.length < 128
  nonzero : ∀ c ∈ f.name, c ≠ 0

/-- With the slash, the terminator and the byte behind the format, the names fit into 128 bytes. -/
def NamesFit (files : List InitrdFile) : Prop := ∀ f ∈ files, f.name.length ≤ 125

instance (files : List InitrdFile) : Decidable (NamesFit files) :=
  inferInstanceAs (Decidable (∀ f ∈ files, f.name.length ≤ 125))

/-- The names fit when the first one does and the others do. -/
theorem namesFit_cons {f : InitrdFile} {files : List InitrdFile} :
    NamesFit (f :: files) ↔ f.name.length ≤ 125 ∧ NamesFit files := List.forall_mem_cons

/-- The literal `"/%s"` lies at `fmt`, apart from the headers of the image, and no `%` behind its
    terminator. -/
structure NameFormat (m : Mem) (fmt location n : Nat) : Prop where
  holds : Holds m fmt ([47] ++ ([37, 115] ++ ([] ++ [0])))
  behind : m (fmt + 4) ≠ 37
  nonzero : fmt ≠ 0
  apart : fmt + 5 ≤ location ∨ fileHeaderAddr location n ≤ fmt

/-! ## File headers in memory -/

section

variable {m : Mem} {a offset length location : Nat} {junk : Nat → UInt8} {name : List UInt8}

/-- `sizeof(initrd_file_header_t)` -/
@[simp] theorem length_fileHeader : (fileHeader junk name offset length).length = 140 := by
  simp [fileHeader, fileHeaderSize]

/-- A header in memory, byte by byte. -/
theorem byte_of_fileHeader (h : Holds m a (fileHeader junk name offset length)) {k : Nat}
    (hk : k < 140) : m (a + k) = headerByte junk name offset length k := by
  refine h k _ ?_
  rw [fileHeader, List.getElem?_map, List.getElem?_range (by exact hk)]
  rfl

/-- The two words of a file header. -/
theorem words_of_fileHeader (h : Holds m a (fileHeader junk name offset length)) :
    Holds m (a + 132) (le32 offset) ∧ Holds m (a + 136) (le32 length) := by
  have hbyte : ∀ k, k < 140 → m (a + k) = headerByte junk name offset length k := fun k hk =>
    byte_of_fileHeader h hk
  constructor
  · intro k b hk
    have hlt : k < 4 := (List.getElem?_eq_some_iff.mp hk).1
    rw [Nat.add_assoc, hbyte _ (by omega), headerByte, if_neg (by omega), if_pos (by omega)]
    have : k = 0 ∨ k = 1 ∨ k = 2 ∨ k = 3 := by omega
    rcases this with rfl | rfl | rfl | rfl <;> simpa [le32] using hk
  · intro k b hk
    have hlt : k < 4 := (List.getElem?_eq_some_iff.mp hk).1
    rw [Nat.add_assoc, hbyte _ (by omega), headerByte, if_pos (by omega)]
    have : k = 0 ∨ k = 1 ∨ k = 2 ∨ k = 3 := by omega
    rcases this with rfl | rfl | rfl | rfl <;> simpa [le32] using hk

/-- Only the four bytes of `offset` depend on the offset. -/
theorem headerByte_of_lt {k : Nat} (offset' : Nat) (hk : k < 132 ∨ 136 ≤ k) :
    headerByte junk name offset' length k = headerByte junk name offset length k := by
  simp only [headerByte]
  rcases hk with hk | hk
  · simp only [if_neg (show ¬ 136 ≤ k by omega), if_neg (show ¬ 132 ≤ k by omega)]
  · rw [if_pos hk, if_pos hk]

/-- One pass of `initrd_parse` on the header of a file. -/
theorem rebase_fileHeader (h : Holds m a (fileHeader junk name offset length)) :
    Holds (store32 m (a + 132) (add32 (load32 m (a + 132)) location)) a
      (fileHeader junk name (add32 offset location) length) := by
  have hload : load32 m (a + 132) = offset % 2 ^ 32 := (words_of_fileHeader h).1.load32
  have hsum : add32 (load32 m (a + 132)) location = add32 offset location := by
    rw [hload, add32, add32, Nat.mod_add_mod]
  rw [hsum]
  intro k b hk
  have hlt := (List.getElem?_eq_some_iff.mp hk).1
  rw [length_fileHeader] at hlt
  rw [fileHeader, List.getElem?_map, List.getElem?_range (by exact hlt), Option.map_some,
    Option.some.injEq] at hk
  rw [← hk]
  by_cases hin : k < 132 ∨ 136 ≤ k
  · have hsame : headerByte junk name (add32 offset location) length k =
        headerByte junk name offset length k := headerByte_of_lt _ hin
    rw [store32_apply_of_disjoint _ _ (by omega), hsame]
    exact byte_of_fileHeader h hlt
  · have : k = 132 ∨ k = 133 ∨ k = 134 ∨ k = 135 := by omega
    rcases this with rfl | rfl | rfl | rfl <;> simp [store32, headerByte]

/-- The name in a file header, with the zero behind it. -/
theorem name_of_fileHeader (h : Holds m a (fileHeader junk name offset length))
    (hshort : name.length < 128) : Holds m (a + 1) (name ++ [0]) := by
  intro k b hk
  have hlt := (List.getElem?_eq_some_iff.mp hk).1
  rw [List.length_append, List.length_singleton] at hlt
  rw [Nat.add_assoc, byte_of_fileHeader h (by omega)]
  unfold headerByte
  rw [if_neg (by omega), if_neg (by omega), if_neg (by omega)]
  by_cases hin : k < name.length
  · -- a byte of the name
    rw [List.getElem?_append_left hin] at hk
    rw [if_pos (by omega), show 1 + k - 1 = k by omega, List.getD_eq_getElem?_getD, hk,
      Option.getD_some]
  · -- the zero that `strcpy` stores
    rw [List.getElem?_append_right (by omega), show k - name.length = 0 by omega] at hk
    rw [if_neg (by omega), if_pos (by omega)]
    exact Option.some.inj hk

/-- **The name of a file** fits into the 128 bytes with the slash, the terminator and the byte
    behind the format if it has at most 125 characters. -/
theorem sprintfName_eq {fmt buf n i : Nat} {f : InitrdFile} (hfmt : NameFormat m fmt location n)
    (hbuf : buf ≠ 0) (h : Holds m (fileHeaderAddr location i)
      (fileHeader junk f.name offset length)) (hnamed : f.Named)
    (haddr : fileHeaderAddr location i + 1 < 2 ^ 32) :
    ∃ r, sprintfName m fmt buf (fileHeaderAddr location i + 1) =
      if f.name.length ≤ 125 then some r else none := by
  have hshort := hnamed.short
  let args : Nat → BitVec 32 := fun _ => BitVec.ofNat 32 (fileHeaderAddr location i + 1)
  have hstr : strncpy m (args 0).toNat 1024 = f.name := by
    simp only [args, BitVec.toNat_ofNat, Nat.mod_eq_of_lt haddr]
    exact strncpy_of_holds (name_of_fileHeader h hshort) hnamed.nonzero (by omega)
  obtain ⟨r, hr, hout⟩ := @vsprintf_splice m fmt [47] [] args buf f.name hfmt.holds (by simp)
    (by simp) hfmt.behind (by decide) hfmt.nonzero hbuf hstr (by omega)
  refine ⟨r, ?_⟩
  rw [sprintfName, hr, Option.bind_some]
  -- the last byte that is stored has the offset length + 2
  have hsome : ∀ j, (r.out j).isSome = true ↔ j < f.name.length + 3 := by
    intro j
    rw [hout, Option.isSome_iff_ne_none, ne_eq, List.getElem?_eq_none_iff, Nat.not_le]
    simp only [List.length_append, List.length_cons, List.length_nil]
    omega
  have hany : ((List.range' 128 1024).any fun j => (r.out j).isSome) = true ↔
      ¬ f.name.length ≤ 125 := by
    simp only [List.any_eq_true, List.mem_range'_1, hsome]
    constructor
    · rintro ⟨j, hj, hlt⟩
      omega
    · intro hlong
      exact ⟨128, by omega, by omega⟩
  by_cases hfits : f.name.length ≤ 125
  · rw [if_neg fun hbad => hany.mp hbad hfits, if_pos hfits]
  · rw [if_pos (hany.mpr hfits), if_neg hfits]

end

/-! ## The table of file headers -/

section

variable {m : Mem} {junk : Nat → Nat → UInt8} {files : List InitrdFile} {location i off : Nat}

/-- The headers follow each other without gaps. -/
@[simp] theorem length_headerLoop : (headerLoop junk i off files).length = 140 * files.length := by
  induction files generalizing i off with
  | nil => rfl
  | cons f files ih =>
    rw [headerLoop, List.length_append, length_fileHeader, ih, List.length_cons]
    omega

/-- The number of bytes of all files. -/
def totalLength (files : List InitrdFile) : Nat := (files.map fun f => f.data.length).sum

/-- The length of the contents, file by file. -/
@[simp] theorem totalLength_cons (f : InitrdFile) :
    totalLength (f :: files) = f.data.length + totalLength files := by
  simp [totalLength]

/-- The headers of two groups of files follow each other. -/
theorem headerLoop_append (hoff : off < 2 ^ 32) (files' : List InitrdFile) :
    headerLoop junk i off (files ++ files') = headerLoop junk i off files ++
      headerLoop junk (i + files.length) (add32 off (totalLength files)) files' := by
  induction files generalizing i off with
  | nil =>
    have hzero : add32 off (totalLength []) = off := Nat.mod_eq_of_lt hoff
    rw [hzero]
    rfl
  | cons f files ih =>
    have hsum : add32 (add32 off f.data.length) (totalLength files) =
        add32 off (totalLength (f :: files)) := by
      simp only [add32, totalLength_cons]
      omega
    rw [List.cons_append, headerLoop, headerLoop, ih (add32_lt _ _), hsum, List.append_assoc,
      List.length_cons, Nat.add_right_comm, Nat.add_assoc i]

/-- **What `initrd_parse` writes**: the headers of the files, with the location added to
    their offsets, as long as their names fit. -/
theorem parseLoop_spec {fmt name n : Nat} (fuel : Nat)
    (hm : Holds m (fileHeaderAddr location i) (headerLoop junk i off files))
    (hcount : load32 m (location + 7) = n) (hn : n = i + files.length) (hfuel : files.length < fuel)
    (hfmt : NameFormat m fmt location n) (hname : name ≠ 0) (hnamed : ∀ f ∈ files, f.Named)
    (hroom : fileHeaderAddr location n ≤ 2 ^ 32) :
    if NamesFit files then
      ∃ m', parseLoop location fmt name fuel i m = some m' ∧
        Holds m' (fileHeaderAddr location i) (headerLoop junk i (add32 off location) files) ∧
        ∀ x, x < fileHeaderAddr location i ∨ fileHeaderAddr location n ≤ x → m' x = m x
    else parseLoop location fmt name fuel i m = none := by
  induction files generalizing m i off fuel with
  | nil =>
    obtain ⟨fuel, rfl⟩ : ∃ n, fuel = n + 1 := ⟨fuel - 1, by omega⟩
    rw [if_pos (by simp [NamesFit])]
    refine ⟨m, ?_, hm, fun _ _ => rfl⟩
    rw [parseLoop, if_neg (by rw [hcount, hn]; simp)]
  | cons f files ih =>
    obtain ⟨fuel, rfl⟩ : ∃ n, fuel = n + 1 := ⟨fuel - 1, by omega⟩
    rw [List.length_cons] at hn hfuel
    rw [headerLoop, holds_append, length_fileHeader] at hm
    rw [List.forall_mem_cons] at hnamed
    have hnext : fileHeaderAddr location i + 140 = fileHeaderAddr location (i + 1) := by
      simp only [fileHeaderAddr, fileHeaderSize]
      omega
    have hlast : fileHeaderAddr location (i + 1) ≤ fileHeaderAddr location n := by
      simp only [fileHeaderAddr, fileHeaderSize]
      omega
    rw [hnext] at hm
    -- the offset of this file; nothing else is written before the next header
    let m₁ := store32 m (fileHeaderAddr location i + 132)
      (add32 (load32 m (fileHeaderAddr location i + 132)) location)
    have hoff : ∀ x, x < fileHeaderAddr location i ∨ fileHeaderAddr location (i + 1) ≤ x →
        m₁ x = m x := fun x hx => store32_apply_of_disjoint _ _ (by omega)
    have hstart : location + 11 ≤ fileHeaderAddr location i := Nat.le_add_right _ _
    have hfmt₁ : NameFormat m₁ fmt location n := by
      have happart := hfmt.apart
      refine ⟨hfmt.holds.congr fun x h1 h2 => hoff x ?_, ?_, hfmt.nonzero, happart⟩
      · simp only [List.length_append, List.length_cons, List.length_nil] at h2
        omega
      · rw [hoff _ (by omega)]
        exact hfmt.behind
    obtain ⟨r, hr⟩ := sprintfName_eq hfmt₁ hname (rebase_fileHeader hm.1) hnamed.1 (by omega)
    have hcount₁ : load32 m₁ (location + 7) = n := by
      rw [load32_congr fun x _ h2 => hoff x (Or.inl (by omega)), hcount]
    have hpass : parseLoop location fmt name (fuel + 1) i m =
        (if f.name.length ≤ 125 then some r else none).bind fun _ =>
          parseLoop location fmt name fuel (i + 1) m₁ := by
      rw [parseLoop, if_pos (by omega), ← hr]
    have htail := ih (m := m₁) (i := i + 1) fuel (hm.2.congr fun x h1 _ => hoff x (Or.inr h1))
      hcount₁ (by omega) (by omega) hfmt₁ hnamed.2
    by_cases hhead : f.name.length ≤ 125
    · rw [if_pos hhead, Option.bind_some] at hpass
      rw [hpass]
      by_cases hrest : NamesFit files
      · rw [if_pos hrest] at htail
        rw [if_pos (namesFit_cons.mpr ⟨hhead, hrest⟩)]
        obtain ⟨m', hm', hheaders, hout⟩ := htail
        refine ⟨m', hm', ?_, fun x hx => ?_⟩
        · rw [headerLoop, holds_append, length_fileHeader, hnext]
          refine ⟨(rebase_fileHeader hm.1).congr fun x _ h2 => hout x (Or.inl ?_), ?_⟩
          · rw [length_fileHeader, hnext] at h2
            exact h2
          · have hcomm : add32 (add32 off location) f.data.length =
                add32 (add32 off f.data.length) location := by
              simp only [add32]
              omega
            rw [hcomm]
            exact hheaders
        · rw [hout x (by omega), hoff x (by omega)]
      · rw [if_neg hrest] at htail
        rw [if_neg fun hall => hrest (namesFit_cons.mp hall).2]
        exact htail
    · -- the stack behind `name` is overwritten
      rw [if_neg hhead, Option.bind_none] at hpass
      rw [if_neg fun hall => hhead (namesFit_cons.mp hall).1]
      exact hpass

/-- All files are found exactly when the contents as a whole lie at the first offset. -/
theorem roundTrip_iff_bytesAt
    (hm : Holds m (fileHeaderAddr location i) (headerLoop junk i off files))
    (hoff : off < 2 ^ 32) (hlen : totalLength files < 2 ^ 32) :
    (∀ j f, files[j]? = some f → Found m location (i + j) f) ↔
      bytesAt m off (totalLength files) = files.flatMap (·.data) := by
  induction files generalizing i off with
  | nil => simp [totalLength, bytesAt]
  | cons f files ih =>
    rw [totalLength_cons] at hlen ⊢
    rw [headerLoop, holds_append, length_fileHeader] at hm
    obtain ⟨hoffset, hlength⟩ := words_of_fileHeader hm.1
    -- the offset of a file is that of the one in front of it plus its length, on both sides
    have hnext : fileHeaderAddr location i + 140 = fileHeaderAddr location (i + 1) := by
      simp only [fileHeaderAddr, fileHeaderSize]
      omega
    rw [hnext] at hm
    have hhead : Found m location i f ↔ bytesAt m off f.data.length = f.data := by
      rw [Found, hoffset.load32, hlength.load32, Nat.mod_eq_of_lt hoff,
        Nat.mod_eq_of_lt (by omega : f.data.length < 2 ^ 32)]
    have htail := ih hm.2 (add32_lt _ _) (by omega)
    rw [add32, bytesAt_mod] at htail
    rw [bytesAt_add, List.flatMap_cons]
    -- the induction is on the files: the first one is read at off, the others behind it
    constructor
    · intro h
      have h0 := hhead.mp (h 0 f rfl)
      rw [h0, htail.mp fun j g hj => ?_]
      have := h (j + 1) g (by simpa using hj)
      rwa [← Nat.add_assoc, Nat.add_right_comm] at this
    · intro h
      obtain ⟨h0, h1⟩ := List.append_inj h (by simp)
      intro j g hj
      cases j with
      | zero =>
        obtain rfl : f = g := by simpa using hj
        exact hhead.mpr h0
      | succ j =>
        have := htail.mpr h1 j g (by simpa using hj)
        rwa [Nat.add_right_comm] at this

end

/-! ## Round trips -/

/-- However memory looks apart from the image and the literal of `initrd_parse`, the latter returns
    and every file is found. -/
def RoundTrip (junk : Nat → Nat → UInt8) (files : List InitrdFile) (location : Nat) : Prop :=
  ∀ m fmt name, Holds m location (makeInitrd junk files) →
    NameFormat m fmt location files.length → name ≠ 0 →
    ∃ m', initrdParse m location fmt name = some m' ∧
      ∀ i f, files[i]? = some f → Found m' location i f

/-- What `initrd_parse` leaves of the last header in the seven bytes in front of the
    contents: the upper bytes of the offset, and the length. -/
def lastHeaderBytes (files : List InitrdFile) (location : Nat) : List UInt8 :=
  match files.getLast? with
  | none => []
  | some f =>
    (le32 (add32 (add32 (fileHeaderSize * maxFiles + 4) location)
      (totalLength files.dropLast))).drop 1 ++ le32 f.data.length

/-- Memory with an image at `location`, the literal `"/%s"` and a zero behind it at `fmt`, and
    `fill` everywhere else. -/
def bootMem (img : List UInt8) (location fmt : Nat) (fill : UInt8) : Mem := fun x =>
  if location ≤ x ∧ x < location + img.length then img.getD (x - location) 0
  else if fmt ≤ x ∧ x < fmt + 5 then [47, 37, 115, 0, 0].getD (x - fmt) 0
  else fill

/-- The image lies where the loader has put it. -/
theorem holds_bootMem (img : List UInt8) (location fmt : Nat) (fill : UInt8) :
    Holds (bootMem img location fmt fill) location img := by
  intro k b hk
  have hlt := (List.getElem?_eq_some_iff.mp hk).1
  rw [bootMem, if_pos ⟨Nat.le_add_right _ _, by omega⟩, Nat.add_sub_cancel_left,
    List.getD_eq_getElem?_getD, hk, Option.getD_some]

/-- The format of the names lies apart from the image. -/
theorem nameFormat_bootMem (img : List UInt8) {location fmt : Nat} (fill : UInt8) (n : Nat)
    (hfmt : fmt ≠ 0) (hbelow : fmt + 5 ≤ location) :
    NameFormat (bootMem img location fmt fill) fmt location n := by
  have hat : ∀ k < 5, bootMem img location fmt fill (fmt + k) = [47, 37, 115, 0, 0].getD k 0 := by
    intro k hk
    rw [bootMem, if_neg (by omega), if_pos (by omega), Nat.add_sub_cancel_left]
  refine ⟨fun k b hk => ?_, by rw [hat 4 (by decide)]; decide, hfmt, Or.inl hbelow⟩
  have hlt : k < 4 := (List.getElem?_eq_some_iff.mp hk).1
  rw [hat k (by omega)]
  interval_cases k <;> exact Option.some.inj hk

/-- Everything else is filled with one byte. -/
theorem bootMem_of_apart {img : List UInt8} {location fmt x : Nat} {fill : UInt8}
    (hx : x < location ∨ location + img.length ≤ x) (hfmt : x < fmt ∨ fmt + 5 ≤ x) :
    bootMem img location fmt fill x = fill := by
  rw [bootMem, if_neg (by omega), if_neg (by omega)]

section

variable {m : Mem} {junk : Nat → Nat → UInt8} {files : List InitrdFile}
  {location fmt name : Nat}

/-- Contents whose sum fits into a word are not cut. -/
theorem flatMap_fileData (hlen : totalLength files < 2 ^ 32) :
    files.flatMap fileData = files.flatMap (·.data) := by
  refine List.flatMap_congr fun f hf => ?_
  have hle : f.data.length ≤ totalLength files :=
    List.le_sum_of_mem (List.mem_map.mpr ⟨f, hf, rfl⟩)
  rw [fileData, Nat.mod_eq_of_lt (by omega), List.take_length]

/-- The contents of an image that fits into memory have less than 4 GiB. -/
theorem totalLength_lt
    (hfit : fileHeaderAddr location files.length + totalLength files ≤ 2 ^ 32) :
    totalLength files < 2 ^ 32 := by
  have : 0 < fileHeaderAddr location files.length := by
    simp only [fileHeaderAddr, initrdHeaderSize]
    omega
  omega

/-- The contents have the length that is written in the headers. -/
theorem length_flatMap_data : (files.flatMap (·.data)).length = totalLength files := by
  rw [List.length_flatMap, totalLength]

/-- Memory after `initrd_parse`, when the names fit. -/
theorem initrdParse_spec (hn : files.length ≤ maxFiles)
    (hfit : fileHeaderAddr location files.length + totalLength files ≤ 2 ^ 32)
    (hnamed : ∀ f ∈ files, f.Named) (hm : Holds m location (makeInitrd junk files))
    (hfmt : NameFormat m fmt location files.length) (hname : name ≠ 0) :
    if NamesFit files then
      ∃ m', initrdParse m location fmt name = some m' ∧
        Holds m' (fileHeaderAddr location 0)
          (headerLoop junk 0 (add32 (fileHeaderSize * maxFiles + 4) location) files) ∧
        Holds m' (fileHeaderAddr location files.length) (files.flatMap (·.data)) ∧
        (∀ x, x < fileHeaderAddr location 0 ∨ fileHeaderAddr location files.length ≤ x →
          m' x = m x) ∧
        ((∀ i f, files[i]? = some f → Found m' location i f) ↔
          bytesAt m' (fileHeaderSize * maxFiles + 4 + location) (totalLength files) =
            files.flatMap (·.data))
    else initrdParse m location fmt name = none := by
  have hlen := totalLength_lt hfit
  rw [maxFiles] at hn
  rw [makeInitrd, flatMap_fileData hlen, holds_append, holds_append, holds_append] at hm
  obtain ⟨⟨⟨-, hcount⟩, htable⟩, hdata⟩ := hm
  have hcount' : load32 m (location + 7) = files.length :=
    (Holds.load32 hcount).trans (Nat.mod_eq_of_lt (by omega))
  have hlist : location + (initrdMagic ++ le32 files.length).length = fileHeaderAddr location 0 :=
    rfl
  rw [hlist] at htable
  -- the contents start where the last header ends, behind the headers that are there and not behind
  -- 64
  have hend : location + (initrdMagic ++ le32 files.length ++
      headerLoop junk 0 (fileHeaderSize * maxFiles + 4) files).length =
        fileHeaderAddr location files.length := by
    rw [List.length_append, length_headerLoop, ← Nat.add_assoc, hlist]
    rfl
  rw [hend] at hdata
  have hparse := parseLoop_spec (2 ^ 32) htable hcount' (Nat.zero_add _).symm (by omega) hfmt hname
    hnamed (by omega)
  by_cases hall : NamesFit files
  · rw [if_pos hall] at hparse ⊢
    obtain ⟨m', hm', htable', hoff⟩ := hparse
    refine ⟨m', hm', htable', hdata.congr fun x h1 _ => hoff x (Or.inr h1), hoff, ?_⟩
    have hiff := roundTrip_iff_bytesAt htable' (add32_lt _ _) hlen
    rw [add32, bytesAt_mod] at hiff
    simpa only [Nat.zero_add] using hiff
  · rw [if_neg hall] at hparse ⊢
    exact hparse

/-- With fewer than 64 headers, the last byte of the contents is looked for behind the
    image. -/
theorem not_roundTrip_of_lt (hn : files.length < maxFiles) (hpos : 0 < totalLength files)
    (hloc : kernelVoffset ≤ location)
    (hfit : fileHeaderAddr location files.length + totalLength files ≤ 2 ^ 32)
    (hnamed : ∀ f ∈ files, f.Named) (hshort : NamesFit files) :
    ¬ RoundTrip junk files location := by
  intro h
  have hlen := totalLength_lt hfit
  rw [kernelVoffset] at hloc
  -- memory that differs from the last byte of the contents wherever the image is not
  obtain ⟨b, hb⟩ : ∃ b, (files.flatMap (·.data))[totalLength files - 1]? = some b :=
    ⟨_, List.getElem?_eq_getElem (by rw [length_flatMap_data]; omega)⟩
  have hlength : (makeInitrd junk files).length = 11 + 140 * files.length + totalLength files := by
    simp only [makeInitrd, flatMap_fileData hlen, List.length_append, length_headerLoop,
      length_flatMap_data, le32, initrdMagic, List.length_cons, List.length_nil]
  generalize haddr : (140 * 64 + 4 + location + (totalLength files - 1)) % 2 ^ 32 = addr
  -- the literal lies below the image, at an address that is not looked at
  obtain ⟨fmt, hfmt0, hfmt, hout⟩ : ∃ fmt, fmt ≠ 0 ∧ fmt ≤ 32 ∧ (addr < fmt ∨ fmt + 5 ≤ addr) := by
    by_cases hlow : 16 ≤ addr ∧ addr < 21
    · exact ⟨32, by omega, by omega, by omega⟩
    · exact ⟨16, by omega, by omega, by omega⟩
  have hm := holds_bootMem (makeInitrd junk files) location fmt (b + 1)
  have hliteral := nameFormat_bootMem (makeInitrd junk files) (b + 1) files.length hfmt0
    (show fmt + 5 ≤ location by omega)
  obtain ⟨m', hm', hfound⟩ := h _ fmt 1 hm hliteral (by decide)
  have hspec := initrdParse_spec hn.le hfit hnamed hm hliteral (show 1 ≠ 0 by decide)
  rw [if_pos hshort] at hspec
  obtain ⟨m'', hm'', -, -, hoff, hiff⟩ := hspec
  obtain rfl : m' = m'' := Option.some_injective _ (hm'.symm.trans hm'')
  rw [fileHeaderAddr, initrdHeaderSize, fileHeaderSize] at hfit
  rw [maxFiles] at hn
  have hbytes := congrArg (fun l => l[totalLength files - 1]?) (hiff.mp hfound)
  have hlast : totalLength files - 1 < totalLength files := by omega
  simp only [hb, bytesAt, List.getElem?_map, List.getElem?_range hlast, Option.map_some,
    Option.some.injEq, fileHeaderSize, maxFiles, haddr] at hbytes
  -- the address lies behind the image, or below it when it wraps around
  have hplace : addr < location ∨ location + (makeInitrd junk files).length ≤ addr := by
    rw [hlength, ← haddr]
    by_cases hwrap : 140 * 64 + 4 + location + (totalLength files - 1) < 2 ^ 32
    · rw [Nat.mod_eq_of_lt hwrap]
      omega
    · rw [Nat.mod_eq_sub_mod (by omega), Nat.mod_eq_of_lt (by omega)]
      omega
  rw [hoff addr (by
    simp only [fileHeaderAddr, initrdHeaderSize, fileHeaderSize]
    rw [hlength] at hplace
    omega), bootMem_of_apart hplace hout] at hbytes
  exact absurd hbytes (by simp)

/-- With 64 headers, the contents are looked for seven bytes in front of their place. -/
theorem found_iff_prefix (hn : files.length = maxFiles)
    (hfit : fileHeaderAddr location files.length + totalLength files ≤ 2 ^ 32)
    (hnamed : ∀ f ∈ files, f.Named) (hshort : NamesFit files)
    (hm : Holds m location (makeInitrd junk files))
    (hfmt : NameFormat m fmt location files.length) (hname : name ≠ 0) :
    ∃ m', initrdParse m location fmt name = some m' ∧
      ((∀ i f, files[i]? = some f → Found m' location i f) ↔
        files.flatMap (·.data) <+: lastHeaderBytes files location ++ files.flatMap (·.data)) := by
  have hspec := initrdParse_spec hn.le hfit hnamed hm hfmt hname
  rw [if_pos hshort] at hspec
  obtain ⟨m', hm', htable, hdata, -, hiff⟩ := hspec
  rw [fileHeaderAddr, initrdHeaderSize, fileHeaderSize] at hfit
  refine ⟨m', hm', hiff.trans ?_⟩
  rw [maxFiles] at hn
  obtain ⟨files', f, hsplit⟩ : ∃ files' f, files = files' ++ [f] := by
    refine (List.eq_nil_or_concat' files).resolve_left fun hnil => ?_
    rw [hnil] at hn
    exact absurd hn (by decide)
  have hlen' : files'.length = 63 := by
    rw [hsplit, List.length_append, List.length_singleton] at hn
    omega
  have htail : lastHeaderBytes files location =
      (le32 (add32 (add32 (fileHeaderSize * maxFiles + 4) location)
        (totalLength files'))).drop 1 ++ le32 f.data.length := by
    rw [lastHeaderBytes, hsplit, List.getLast?_concat, List.dropLast_concat]
  -- the last seven bytes of the last header
  have hlast : Holds m' (fileHeaderSize * maxFiles + 4 + location)
      (lastHeaderBytes files location) := by
    rw [hsplit, headerLoop_append (add32_lt _ _), holds_append, headerLoop, headerLoop,
      List.append_nil, length_headerLoop, hlen'] at htable
    obtain ⟨hoffset, hlength⟩ := words_of_fileHeader htable.2
    rw [htail, holds_append]
    have haddr : fileHeaderAddr location 0 + 140 * 63 + 132 + 1 =
        fileHeaderSize * maxFiles + 4 + location := by
      simp only [fileHeaderAddr, initrdHeaderSize, fileHeaderSize, maxFiles]
      omega
    refine ⟨?_, ?_⟩
    · rw [← haddr]
      exact (holds_append (l := [_]).mp hoffset).2
    · rw [← haddr]
      exact hlength
  have hall : Holds m' (fileHeaderSize * maxFiles + 4 + location)
      (lastHeaderBytes files location ++ files.flatMap (·.data)) := by
    refine holds_append.mpr ⟨hlast, ?_⟩
    have haddr : fileHeaderSize * maxFiles + 4 + location +
        (lastHeaderBytes files location).length = fileHeaderAddr location files.length := by
      rw [htail, hn]
      simp only [fileHeaderAddr, initrdHeaderSize, fileHeaderSize, maxFiles, le32, List.drop_succ_cons,
        List.drop_zero, List.length_append, List.length_cons, List.length_nil]
      omega
    rw [haddr]
    exact hdata
  have hseven : (lastHeaderBytes files location).length = 7 := by
    rw [htail]
    rfl
  rw [hall.bytesAt, List.prefix_iff_eq_take, length_flatMap_data]
  · exact eq_comm
  · rw [List.length_append, hseven, length_flatMap_data]
    simp only [fileHeaderSize, maxFiles]
    omega
  · rw [List.length_append, length_flatMap_data]
    omega

/-- **Round trips.** The files of an image are found, whatever memory holds apart from it, if and
    only if their names have at most 125 characters and all of them are empty, or there are 64 and
    their contents repeat the seven bytes in front of them over and over. -/
theorem round_trip_iff (junk : Nat → Nat → UInt8) (hn : files.length ≤ maxFiles)
    (hnamed : ∀ f ∈ files, f.Named) (hloc : kernelVoffset ≤ location)
    (hfit : fileHeaderAddr location files.length + totalLength files ≤ 2 ^ 32) :
    RoundTrip junk files location ↔ NamesFit files ∧
      (totalLength files = 0 ∨ (files.length = maxFiles ∧
        files.flatMap (·.data) <+: lastHeaderBytes files location ++ files.flatMap (·.data))) := by
  have hlen := totalLength_lt hfit
  -- a round trip is one for every memory with the image, so also for the memory with zeros
  -- apart from it
  have hm₀ := holds_bootMem (makeInitrd junk files) location 16 0
  have hfmt₀ := nameFormat_bootMem (makeInitrd junk files) 0 files.length
    (show 16 ≠ 0 by decide) (show 16 + 5 ≤ location by rw [kernelVoffset] at hloc; omega)
  constructor
  · intro h
    obtain ⟨m₁, hm₁, hfound⟩ := h _ 16 1 hm₀ hfmt₀ (by decide)
    have hshort : NamesFit files := by
      by_contra hlong
      have hspec := initrdParse_spec hn hfit hnamed hm₀ hfmt₀ (show 1 ≠ 0 by decide)
      rw [if_neg hlong, hm₁] at hspec
      exact absurd hspec (by simp)
    refine ⟨hshort, ?_⟩
    by_cases hpos : totalLength files = 0
    · exact Or.inl hpos
    · have hmax : files.length = maxFiles := by
        by_contra hne
        exact not_roundTrip_of_lt (by omega) (by omega) hloc hfit hnamed hshort h
      obtain ⟨m₂, hm₂, hiff⟩ := found_iff_prefix hmax hfit hnamed hshort hm₀ hfmt₀
        (show 1 ≠ 0 by decide)
      -- both runs of initrd_parse are the same one
      obtain rfl : m₁ = m₂ := Option.some_injective _ (hm₁.symm.trans hm₂)
      exact Or.inr ⟨hmax, hiff.mp hfound⟩
  · rintro ⟨hshort, hzero | ⟨hmax, hprefix⟩⟩ m fmt name hm hfmt hname
    · have hspec := initrdParse_spec hn hfit hnamed hm hfmt hname
      rw [if_pos hshort] at hspec
      obtain ⟨m', hm', -, -, -, hiff⟩ := hspec
      refine ⟨m', hm', hiff.mpr ?_⟩
      have hnil : files.flatMap (·.data) = [] :=
        List.eq_nil_of_length_eq_zero (by rw [length_flatMap_data]; exact hzero)
      rw [hnil, hzero]
      rfl
    · obtain ⟨m', hm', hiff⟩ := found_iff_prefix hmax hfit hnamed hshort hm hfmt hname
      exact ⟨m', hm', hiff.mpr hprefix⟩

end

/-- An image with one empty file. -/
theorem round_trip_empty : RoundTrip (fun _ _ => 0) [⟨[0x61], []⟩] 0xc0200000 :=
  (round_trip_iff _ (by decide) (by simpa using ⟨by decide, by simp⟩) (by decide)
    (by decide)).mpr ⟨by decide, Or.inl rfl⟩

/-- An image with one file of one byte is not read back. -/
theorem round_trip_one_byte_fails : ¬ RoundTrip (fun _ _ => 0) [⟨[0x61], [1]⟩] 0xc0200000 :=
  not_roundTrip_of_lt (by decide) (by decide) (by decide) (by decide)
    (by simpa using ⟨by decide, by simp⟩) (by decide)

end Toutatis
