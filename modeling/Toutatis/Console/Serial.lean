import Toutatis.Console.Splice
import Toutatis.Console.Vga

/-!
# The serial line

A shallow embedding of `write`, `write_char` and `is_transmit_empty` of `kernel/serial.c`. What
the line status register reads is up to the device; the sequence of its readings is given, and
the accesses to the two ports are listed as they are made. A wait that needs more than
`patience` readings counts as one that does not end.

Colors are escapes of two bytes, which are sent as the escape sequences of a terminal. These
are made by `sprintf`, from the tables `term_fg` and `term_bg`.

## Key results

- `sprintf_color`: the sequence of a color in `buf`
- `serial_translates`: what is sent, and when, and what the screen does with the same bytes
- `screen_color`: the colors of the screen after any calls
-/

namespace Toutatis

open ByteMem Run

/-! ## The line -/

/-- An access to the ports: a reading of the line status register, or a byte that is sent. -/
inductive PortAccess where
  | poll (x : UInt8)
  | send (c : UInt8)

/-- The line: how often the status has been read, and the accesses so far. -/
structure Line where
  reads : Nat
  trace : List PortAccess

/-- The driver with its tables in memory: where the formats and the strings are, where `buf` is,
    and what the status register reads. -/
structure SerialPort where
  mem : Mem
  fgAddr : Nat → Nat
  bgAddr : Nat → Nat
  buf : Nat
  status : Nat → UInt8
  patience : Nat

/-- The code of a character. -/
def ascii (c : Char) : UInt8 := UInt8.ofNat c.toNat

/-- `"\033[0;ab;%sm"` -/
def fgFormat (a b : Char) : List UInt8 :=
  27 :: ['[', '0', ';', a, b, ';', '%', 's', 'm'].map ascii

/-- `term_fg` -/
def termFg : List (List UInt8) :=
  [fgFormat '3' '0', fgFormat '3' '4', fgFormat '3' '2', fgFormat '3' '6', fgFormat '3' '1',
    fgFormat '3' '5', fgFormat '3' '3', fgFormat '3' '7', fgFormat '9' '0', fgFormat '9' '4',
    fgFormat '9' '2', fgFormat '9' '6', fgFormat '9' '1', fgFormat '9' '5', fgFormat '3' '3',
    fgFormat '3' '7']

/-- `term_bg` -/
def termBg : List (List UInt8) :=
  [['4', '0'], ['4', '4'], ['4', '2'], ['4', '6'], ['4', '1'], ['4', '5'], ['4', '3'],
    ['4', '7'], ['1', '0', '0'], ['1', '0', '4'], ['1', '0', '2'], ['1', '0', '6'], ['1', '0', '1'],
    ['1', '0', '5'], ['1', '0', '3'], ['4', '7']].map fun text => text.map ascii

section

variable (p : SerialPort)

/-- `is_transmit_empty` of a reading. -/
def isTransmitEmpty (x : UInt8) : Bool := x &&& 0x20 ≠ 0

/-- `while (is_transmit_empty() == 0) ;` -/
def waitEmpty : (fuel : Nat) → Line → Option Line
  | 0, _ => none
  | fuel + 1, s =>
    let x := p.status s.reads
    let s : Line := ⟨s.reads + 1, s.trace ++ [.poll x]⟩
    if isTransmitEmpty x then some s else waitEmpty fuel s

/-- `write_char` -/
def writeChar (s : Line) (c : UInt8) : Option Line :=
  (waitEmpty p p.patience s).map fun s => { s with trace := s.trace ++ [.send c] }

/-- `sprintf(buf, term_fg[c % 16], term_bg[c / 16])`: the bytes of `buf`. -/
def sprintfColor (buf : Nat → UInt8) (c : UInt8) : Option (Nat → UInt8) :=
  (vsprintf p.mem (p.fgAddr (c.toNat % 16)) (fun _ => BitVec.ofNat 32 (p.bgAddr (c.toNat / 16)))
    p.buf).map fun r j => (r.out j).getD (buf j)

/-- `for (k = 0; buf[k]; ++k) write_char(buf[k])`; `buf` has 32 bytes. -/
def sendBuf (buf : Nat → UInt8) : (fuel k : Nat) → Line → Option Line
  | 0, _, _ => none
  | fuel + 1, k, s =>
    if buf k ≠ 0 then (writeChar p s (buf k)).bind (sendBuf buf fuel (k + 1)) else some s

/-- The loop of `write`, from the byte `i` on, with the contents of `buf`. -/
def serialLoop (data : Nat → UInt8) (len : Nat) :
    (fuel i : Nat) → (Nat → UInt8) → Line → Option (Nat × Line)
  | 0, i, _, s => some (i, s)
  | fuel + 1, i, buf, s =>
    if data i ≠ 0 ∧ i < len then
      if data i = 27 then
        (sprintfColor p buf (data (i + 1))).bind fun buf =>
          (sendBuf p buf 32 0 s).bind (serialLoop data len fuel (i + 2) buf)
      else (writeChar p s (data i)).bind (serialLoop data len fuel (i + 1) buf)
    else some (i, s)

/-- `write`; its loop is left after `len` passes at most. -/
def serialWrite (s : Line) (data : Nat → UInt8) (len : Nat) : Option (Nat × Line) :=
  serialLoop p data len len 0 (fun _ => 0) s

end

/-! ## The sequence of a color -/

/-- The escape sequence for the color `c`: the format of its low half around the string of its high
    half. -/
def ansiColor (c : UInt8) : List UInt8 :=
  (termFg.getD (c.toNat % 16) []).take 7 ++ termBg.getD (c.toNat / 16) [] ++ [ascii 'm']

/-- The tables are in memory, no `%` lies behind the terminator of a format, and the line takes the
    next byte in time. -/
structure SerialPort.Ok (p : SerialPort) : Prop where
  fg : ∀ i < 16, Holds p.mem (p.fgAddr i) (termFg.getD i [] ++ [0]) ∧ p.fgAddr i ≠ 0
  bg : ∀ i < 16, Holds p.mem (p.bgAddr i) (termBg.getD i [] ++ [0]) ∧ p.bgAddr i < 2 ^ 32
  behind : ∀ i < 16, p.mem (p.fgAddr i + 11) ≠ 37
  buf : p.buf ≠ 0
  patience : ∀ k, ∃ j < p.patience, isTransmitEmpty (p.status (k + j)) = true

/-- A format of `term_fg` is seven plain characters and then `%sm`. -/
theorem termFg_spec {i : Nat} (hi : i < 16) :
    termFg.getD i [] = (termFg.getD i []).take 7 ++ [37, 115, 109] ∧
      ((termFg.getD i []).take 7).length = 7 ∧
      ∀ c ∈ (termFg.getD i []).take 7, c ≠ 37 ∧ c ≠ 0 := by
  have hall : ∀ l ∈ termFg, l = l.take 7 ++ [37, 115, 109] ∧ (l.take 7).length = 7 ∧
      ∀ c ∈ l.take 7, c ≠ 37 ∧ c ≠ 0 := by
    simp [termFg, fgFormat, ascii]
  apply hall
  rw [List.getD_eq_getElem _ _ hi]
  exact List.getElem_mem _

/-- An entry of `term_bg` is a short string without the null byte. -/
theorem termBg_spec {i : Nat} (hi : i < 16) :
    0 < (termBg.getD i []).length ∧ (termBg.getD i []).length ≤ 3 ∧
      ∀ c ∈ termBg.getD i [], c ≠ 0 := by
  have hall : ∀ l ∈ termBg, 0 < l.length ∧ l.length ≤ 3 ∧ ∀ c ∈ l, c ≠ 0 := by
    simp [termBg, ascii]
  apply hall
  rw [List.getD_eq_getElem _ _ hi]
  exact List.getElem_mem _

/-- **The sequence of a color**: `sprintf` leaves it in `buf` with its terminator and the byte that
    it finds behind the format, and stays within 13 of the 32 bytes. -/
theorem sprintf_color {p : SerialPort} (hp : p.Ok) (buf : Nat → UInt8) (c : UInt8) :
    ∃ buf' x, sprintfColor p buf c = some buf' ∧
      (∀ j, buf' j = ((ansiColor c ++ [0, x])[j]?).getD (buf j)) ∧
      (ansiColor c ++ [0, x]).length ≤ 13 := by
  have hfg : c.toNat % 16 < 16 := Nat.mod_lt _ (by decide)
  have hbg : c.toNat / 16 < 16 := by
    have := c.toNat_lt
    omega
  obtain ⟨hformat, hpre, hplain⟩ := termFg_spec hfg
  obtain ⟨hpos, hshort, hnonzero⟩ := termBg_spec hbg
  obtain ⟨hholds, hnull⟩ := hp.fg _ hfg
  obtain ⟨hholds', hlt⟩ := hp.bg _ hbg
  have hbehind := hp.behind _ hfg
  unfold ansiColor sprintfColor
  rw [hformat, List.append_assoc, holds_append, hpre] at hholds
  obtain ⟨hplace, hrest⟩ := hholds
  generalize termBg.getD (c.toNat / 16) [] = str at *
  generalize (termFg.getD (c.toNat % 16) []).take 7 = pre at *
  generalize p.fgAddr (c.toNat % 16) = fmt at *
  generalize p.bgAddr (c.toNat / 16) = bg at *
  have hbytes : Holds p.mem fmt (pre ++ ([37, 115] ++ ([109] ++ [0]))) :=
    holds_append.mpr ⟨hplace, by rw [hpre]; exact hrest⟩
  let args : Nat → BitVec 32 := fun _ => BitVec.ofNat 32 bg
  have hstr : strncpy p.mem (args 0).toNat 1024 = str := by
    simp only [args, BitVec.toNat_ofNat, Nat.mod_eq_of_lt hlt]
    exact strncpy_of_holds hholds' hnonzero (by omega)
  have hat : fmt + (pre.length + [(109 : UInt8)].length + 3) = fmt + 11 := by rw [hpre]; rfl
  obtain ⟨r, hr, hout⟩ := @vsprintf_splice p.mem fmt pre [109] args p.buf str hbytes hplain
    (by simp) (by rw [hat]; exact hbehind) (by rw [hpre]; decide) hnull hp.buf hstr (by omega)
  rw [hat] at hout
  refine ⟨fun j => (r.out j).getD (buf j), p.mem (fmt + 11), ?_, fun j => ?_, ?_⟩
  · -- the call returns
    rw [hr, Option.map_some]
  · -- the prefix, the background, the letter and the terminator, and the byte behind it
    show (r.out j).getD (buf j) = _
    rw [hout]
    simp [ascii]
  · -- seven bytes, at most three, and three
    simp only [List.length_append, List.length_cons, List.length_nil, hpre]
    omega

/-! ## What is sent -/

/-- The bytes that are sent, in order. -/
def sent (trace : List PortAccess) : List UInt8 :=
  trace.filterMap fun
    | .poll _ => none
    | .send c => some c

/-- Every byte is sent directly behind a reading that shows the transmitter to be empty. -/
inductive Guarded : List PortAccess → Prop
  | nil : Guarded []
  | poll {trace : List PortAccess} (h : Guarded trace) (x : UInt8) : Guarded (trace ++ [.poll x])
  | send {trace : List PortAccess} (h : Guarded trace) {x : UInt8} (hx : isTransmitEmpty x = true)
      (c : UInt8) : Guarded (trace ++ [.poll x, .send c])

/-- What a character and a color are on the line. -/
def ansi : VgaEvent → List UInt8
  | .char c => [c]
  | .color b => ansiColor b
  | _ => []

/-- `l` has been sent from `s` to `s'`. -/
structure Sends (l : List UInt8) (s s' : Line) : Prop where
  sent : sent s'.trace = Toutatis.sent s.trace ++ l
  guarded : Guarded s.trace → Guarded s'.trace

section

variable {p : SerialPort} {s s' s'' : Line} {l l' : List UInt8}

/-- Doing nothing sends nothing. -/
theorem Sends.nil : Sends [] s s := ⟨(List.append_nil _).symm, id⟩

/-- What two parts send follows each other. -/
theorem Sends.append (h : Sends l s s') (h' : Sends l' s' s'') : Sends (l ++ l') s s'' :=
  ⟨by rw [h'.sent, h.sent, List.append_assoc], fun hs => h'.guarded (h.guarded hs)⟩

/-- The wait ends at the first reading that allows it, and only reads. -/
theorem waitEmpty_spec {fuel : Nat}
    (h : ∃ j < fuel, isTransmitEmpty (p.status (s.reads + j)) = true) :
    ∃ s' t x, waitEmpty p fuel s = some s' ∧ s'.trace = t ++ [.poll x] ∧
      isTransmitEmpty x = true ∧ sent t = sent s.trace ∧ (Guarded s.trace → Guarded t) := by
  induction fuel generalizing s with
  | zero =>
    obtain ⟨j, hj, -⟩ := h
    exact absurd hj (Nat.not_lt_zero j)
  | succ fuel ih =>
    obtain ⟨j, hj, hready⟩ := h
    rw [waitEmpty]
    by_cases hx : isTransmitEmpty (p.status s.reads) = true
    · -- the transmitter is ready
      rw [if_pos hx]
      exact ⟨_, s.trace, _, rfl, rfl, hx, rfl, id⟩
    · rw [if_neg hx]
      -- one of the later readings shows it ready
      cases j with
      | zero => exact absurd hready hx
      | succ j =>
        obtain ⟨s', t, x, hs', htrace, hempty, hsent, hguard⟩ :=
          ih (s := ⟨s.reads + 1, s.trace ++ [.poll (p.status s.reads)]⟩)
            ⟨j, by omega, by rwa [Nat.add_right_comm]⟩
        refine ⟨s', t, x, hs', htrace, hempty, ?_, fun hs => hguard (hs.poll _)⟩
        rw [hsent]
        simp [sent]

/-- `write_char` waits for the transmitter, however long it is busy, and sends one byte. -/
theorem writeChar_spec (hp : p.Ok) (s : Line) (c : UInt8) :
    ∃ s', writeChar p s c = some s' ∧ Sends [c] s s' := by
  obtain ⟨s', t, x, hs', htrace, hempty, hsent, hguard⟩ := waitEmpty_spec (hp.patience s.reads)
  refine ⟨_, by rw [writeChar, hs', Option.map_some], ?_, fun hs => ?_⟩
  · rw [← hsent, htrace]
    simp [sent]
  · simp only [htrace, List.append_assoc]
    exact (hguard hs).send hempty c

/-- The bytes in front of the terminator of `buf` are sent. -/
theorem sendBuf_spec (hp : p.Ok) {buf : Nat → UInt8} {fuel k : Nat} (hl : ∀ c ∈ l, c ≠ 0)
    (hbuf : Holds buf k (l ++ [0])) (hfuel : l.length < fuel) (s : Line) :
    ∃ s', sendBuf p buf fuel k s = some s' ∧ Sends l s s' := by
  induction l generalizing fuel k s with
  | nil =>
    cases fuel with
    | zero => exact absurd hfuel (Nat.not_lt_zero _)
    | succ fuel =>
      -- the terminator
      rw [sendBuf, if_neg (not_not_intro hbuf.head)]
      exact ⟨s, rfl, Sends.nil⟩
  | cons c l ih =>
    cases fuel with
    | zero => exact absurd hfuel (Nat.not_lt_zero _)
    | succ fuel =>
      rw [List.length_cons] at hfuel
      rw [List.forall_mem_cons] at hl
      have hc : buf k = c := hbuf.head
      obtain ⟨s₁, hs₁, hsends₁⟩ := writeChar_spec hp s c
      have hlt : l.length < fuel := by omega
      obtain ⟨s₂, hs₂, hsends₂⟩ := ih hl.2 hbuf.tail hlt s₁
      rw [sendBuf, hc, if_pos hl.1, hs₁, Option.bind_some]
      exact ⟨s₂, hs₂, hsends₁.append hsends₂⟩

/-- An escape sequence does not hold the null byte. -/
theorem ansiColor_ne_zero {c b : UInt8} (h : b ∈ ansiColor c) : b ≠ 0 := by
  have hbg : c.toNat / 16 < 16 := by
    have := c.toNat_lt
    omega
  simp only [ansiColor, List.mem_append, List.mem_singleton] at h
  obtain (hpre | hstr) | rfl := h
  · exact ((termFg_spec (Nat.mod_lt _ (by decide))).2.2 b hpre).2
  · exact (termBg_spec hbg).2.2 b hstr
  · decide

/-- A color is sent as its sequence. -/
theorem writeColor_spec (hp : p.Ok) (buf : Nat → UInt8) (c : UInt8) (s : Line) :
    ∃ buf' s', sprintfColor p buf c = some buf' ∧ sendBuf p buf' 32 0 s = some s' ∧
      Sends (ansiColor c) s s' := by
  obtain ⟨buf', x, hbuf, hbytes, hlen⟩ := sprintf_color hp buf c
  have hholds : Holds buf' 0 (ansiColor c ++ [0] ++ [x]) := by
    intro k b hk
    rw [Nat.zero_add, hbytes, ← show ansiColor c ++ [0] ++ [x] = ansiColor c ++ [0, x] by
      rw [List.append_assoc]; rfl, hk]
    rfl
  have hlt : (ansiColor c).length < 32 := by
    rw [List.length_append] at hlen
    omega
  obtain ⟨s', hs', hsends⟩ := sendBuf_spec hp (fun b hb => ansiColor_ne_zero hb)
    (holds_append.mp hholds).1 hlt s
  exact ⟨buf', s', hbuf, hs', hsends⟩

end

/-- Where the loops of `write` and `vga_write` stop reading. -/
def writeEnd (data : Nat → UInt8) (len : Nat) : (fuel i : Nat) → Nat
  | 0, i => i
  | fuel + 1, i =>
    if data i ≠ 0 ∧ i < len then
      writeEnd data len fuel (if data i = 27 then i + 2 else i + 1)
    else i

/-- The loop of `write` sends the bytes of its events, colors as escape sequences. -/
theorem serialLoop_spec {p : SerialPort} (hp : p.Ok) (data : Nat → UInt8) (len fuel i : Nat)
    (buf : Nat → UInt8) (s : Line) :
    ∃ s', serialLoop p data len fuel i buf s = some (writeEnd data len fuel i, s') ∧
      Sends ((writeEvents data len fuel i).flatMap ansi) s s' := by
  induction fuel generalizing i buf s with
  | zero => exact ⟨s, rfl, Sends.nil⟩
  | succ fuel ih =>
    rw [serialLoop, writeEnd, writeEvents]
    by_cases hmore : data i ≠ 0 ∧ i < len
    · rw [if_pos hmore, if_pos hmore, if_pos hmore]
      by_cases hesc : data i = 27
      · -- a color takes two bytes of the data
        rw [if_pos hesc, if_pos hesc, if_pos hesc, List.flatMap_cons]
        obtain ⟨buf', s₁, hbuf, hs₁, hsends₁⟩ := writeColor_spec hp buf (data (i + 1)) s
        obtain ⟨s₂, hs₂, hsends₂⟩ := ih (i + 2) buf' s₁
        rw [hbuf, Option.bind_some, hs₁, Option.bind_some]
        exact ⟨s₂, hs₂, hsends₁.append hsends₂⟩
      · -- a character is sent as it is
        rw [if_neg hesc, if_neg hesc, if_neg hesc, List.flatMap_cons]
        obtain ⟨s₁, hs₁, hsends₁⟩ := writeChar_spec hp s (data i)
        obtain ⟨s₂, hs₂, hsends₂⟩ := ih (i + 1) buf s₁
        rw [hs₁, Option.bind_some]
        exact ⟨s₂, hs₂, hsends₁.append hsends₂⟩
    · -- the end of the data or of the string
      rw [if_neg hmore, if_neg hmore, if_neg hmore]
      exact ⟨s, rfl, Sends.nil⟩

/-- The loop of `vga_write` ends at the same byte. -/
theorem vgaWriteLoop_end {data : Nat → UInt8} {len fuel i n : Nat} {c c' : Console}
    (h : vgaWriteLoop data len fuel i c = some (n, c')) : n = writeEnd data len fuel i := by
  induction fuel generalizing i c with
  | zero => exact (Prod.mk.inj (Option.some.inj h)).1.symm
  | succ fuel ih =>
    rw [vgaWriteLoop] at h
    rw [writeEnd]
    by_cases hmore : data i ≠ 0 ∧ i < len
    · rw [if_pos hmore] at h ⊢
      by_cases hesc : data i = 27
      · -- a color does not print
        rw [if_pos hesc] at h ⊢
        exact ih h
      · -- a character does
        rw [if_neg hesc, Option.bind_eq_some_iff] at h
        obtain ⟨c₁, -, h⟩ := h
        rw [if_neg hesc]
        exact ih h
    · rw [if_neg hmore] at h ⊢
      exact (Prod.mk.inj (Option.some.inj h)).1.symm

/-- **What is written.** With the tables of colors in memory, no `%` behind a format of `term_fg`,
    a line that takes the next byte in time and the cursor on the screen, for all bytes and lengths
    `write` and `vga_write` return the same count, and do the same characters and colors in the same
    order. On the line a color is its escape sequence, and each byte is sent behind a reading that
    allows it. -/
theorem serial_translates {p : SerialPort} (hp : p.Ok) {c : Console} (hc : ScreenOk c)
    (data : Nat → UInt8) (len : Nat) (s : Line) :
    ∃ n s' c', serialWrite p s data len = some (n, s') ∧ vgaWrite c data len = some (n, c') ∧
      sent s'.trace = sent s.trace ++ (writeEvents data len len 0).flatMap ansi ∧
      (Guarded s.trace → Guarded s'.trace) ∧
      execAll VgaEvent.exec c (writeEvents data len len 0) = some c' := by
  obtain ⟨s', hs', hsends⟩ := serialLoop_spec hp data len len 0 (fun _ => 0) s
  have hall : Each VgaEvent.exec (fun _ _ => True) c (writeEvents data len len 0) :=
    each_of_forall fun _ _ _ => trivial
  obtain ⟨c', hc', -⟩ := exists_execAll (fun c e h _ => ScreenOk.exec h e) hc hall
  have hmap := vgaWriteLoop_events data len len 0 c
  rw [hc', Option.map_eq_some_iff] at hmap
  obtain ⟨⟨n, t⟩, hwrite, rfl⟩ := hmap
  have hn := vgaWriteLoop_end hwrite
  exact ⟨n, s', t, by rw [hn]; exact hs', hwrite, hsends.sent, hsends.guarded, hc'⟩

/-- The tables at `0x1000` and `0x2000`, and a line that is always ready. -/
def tablePort : SerialPort where
  mem a :=
    if a < 0x2000 then (termFg.getD ((a - 0x1000) / 16) []).getD ((a - 0x1000) % 16) 0
    else (termBg.getD ((a - 0x2000) / 16) []).getD ((a - 0x2000) % 16) 0
  fgAddr i := 0x1000 + 16 * i
  bgAddr i := 0x2000 + 16 * i
  buf := 0x3000
  status _ := 0x20
  patience := 1

/-- Bytes that are found one by one are a string in memory. -/
theorem holds_getD {m : Mem} {a : Nat} {l : List UInt8} (h : ∀ k ≤ l.length, m (a + k) = l.getD k 0) :
    Holds m a (l ++ [0]) := by
  intro k b hk
  have hle : k < l.length + 1 := by
    have := (List.getElem?_eq_some_iff.mp hk).1
    rwa [List.length_append, List.length_singleton] at this
  rw [h k (by omega), List.getD_eq_getElem?_getD]
  by_cases hlt : k < l.length
  · rw [List.getElem?_append_left hlt] at hk
    rw [hk, Option.getD_some]
  · obtain rfl : k = l.length := by omega
    rw [List.getElem?_concat_length, Option.some.injEq] at hk
    rw [List.getElem?_eq_none (Nat.le_refl _), Option.getD_none, hk]

/-- A port with the two tables of colors, whose transmitter is always empty. -/
theorem tablePort_ok : tablePort.Ok where
  fg i hi := by
    obtain ⟨hformat, hlen, -⟩ := termFg_spec hi
    refine ⟨holds_getD fun k hk => ?_, by simp [tablePort]⟩
    rw [hformat, List.length_append, hlen] at hk
    have hk : k ≤ 10 := hk
    simp only [tablePort]
    rw [if_pos (by omega), show (0x1000 + 16 * i + k - 0x1000) / 16 = i by omega,
      show (0x1000 + 16 * i + k - 0x1000) % 16 = k by omega]
  bg i hi := by
    obtain ⟨-, hlen, -⟩ := termBg_spec hi
    refine ⟨holds_getD fun k hk => ?_, ?_⟩
    · -- the string
      simp only [tablePort]
      rw [if_neg (by omega), show (0x2000 + 16 * i + k - 0x2000) / 16 = i by omega,
        show (0x2000 + 16 * i + k - 0x2000) % 16 = k by omega]
    · -- its address is not the null one
      simp only [tablePort]
      omega
  behind i hi := by
    obtain ⟨hformat, hlen, -⟩ := termFg_spec hi
    simp only [tablePort]
    rw [if_pos (by omega), show (0x1000 + 16 * i + 11 - 0x1000) / 16 = i by omega,
      show (0x1000 + 16 * i + 11 - 0x1000) % 16 = 11 by omega, List.getD_eq_default]
    · -- the byte behind the format is not a percent sign
      decide
    · rw [hformat, List.length_append, hlen]
      decide
  buf := by decide
  patience k := ⟨0, by decide, by simp only [tablePort]; decide⟩

/-- A color and a letter, with the terminator behind them. -/
theorem serial_translates_letter :
    ∃ n s' c', serialWrite tablePort ⟨0, []⟩ (fun k => [27, 7, 65].getD k 0) 4 = some (n, s') ∧
      vgaWrite ⟨0, 0, 0x0f00, fun _ => 0, 0⟩ (fun k => [27, 7, 65].getD k 0) 4 = some (n, c') ∧
      sent s'.trace = ansiColor 7 ++ [65] := by
  obtain ⟨n, s', c', hs', hc', hsent, -, -⟩ := serial_translates tablePort_ok
    (c := ⟨0, 0, 0x0f00, fun _ => 0, 0⟩) ⟨by decide, by decide, by decide⟩
    (fun k => [27, 7, 65].getD k 0) 4 ⟨0, []⟩
  exact ⟨n, s', c', hs', hc', hsent⟩

/-! ## The colors of the screen -/

/-- The colors that are set. -/
def colorsOf (events : List VgaEvent) : List UInt8 :=
  events.filterMap fun
    | .color b => some b
    | _ => none

/-- The background after colors are set on a background. -/
def background (bg : Nat) (colors : List UInt8) : Nat :=
  colors.foldl (fun bg b => bg ||| b.toNat / 16) bg

section

variable {s t : Console}

/-- Scrolling keeps the attribute. -/
theorem vgaScroll_attr (h : vgaScroll s = some t) : t.attr = s.attr := by
  rw [vgaScroll] at h
  split at h
  · rw [Option.bind_eq_some_iff] at h
    obtain ⟨v, -, h⟩ := h
    rw [Option.map_eq_some_iff] at h
    obtain ⟨v', -, rfl⟩ := h
    rfl
  · rw [Option.some.inj h]

/-- Putting a character keeps the attribute. -/
theorem vgaPut_attr {c : UInt8} (h : vgaPut s c = some t) : t.attr = s.attr := by
  rw [vgaPut] at h
  split_ifs at h
  all_goals
    first
    | obtain rfl := Option.some.inj h
    | rw [Option.map_eq_some_iff] at h
      obtain ⟨v, -, rfl⟩ := h
    rfl

/-- Printing a character keeps the attribute. -/
theorem vgaPrintChar_attr {c : UInt8} (h : vgaPrintChar s c = some t) : t.attr = s.attr := by
  rw [vgaPrintChar, Option.bind_eq_some_iff] at h
  obtain ⟨m, hm, h⟩ := h
  rw [Option.map_eq_some_iff] at h
  obtain ⟨u, hu, rfl⟩ := h
  have hwrap : (vgaWrap m).attr = m.attr := by
    rw [vgaWrap]
    split <;> rfl
  show u.attr = s.attr
  rw [vgaScroll_attr hu, hwrap, vgaPut_attr hm]

/-- Only a color changes the attribute. -/
theorem exec_attr {e : VgaEvent} (h : e.exec s = some t) :
    t.attr = (colorsOf [e]).foldl (fun attr b => b.toNat <<< 8 ||| attr &&& 0xf000) s.attr := by
  cases e with
  | clear =>
    rw [VgaEvent.exec, vgaClear, Option.map_eq_some_iff] at h
    obtain ⟨v, -, rfl⟩ := h
    rfl
  | setPos x y =>
    obtain rfl := Option.some.inj h
    rfl
  | char c => exact vgaPrintChar_attr h
  | color b =>
    obtain rfl := Option.some.inj h
    rfl

/-- The colors of two runs follow each other. -/
theorem colorsOf_append (a b : List VgaEvent) : colorsOf (a ++ b) = colorsOf a ++ colorsOf b :=
  List.filterMap_append

/-- Only the colors of a run change the attribute. -/
theorem execAll_attr {events : List VgaEvent} (h : execAll VgaEvent.exec s events = some t) :
    t.attr = (colorsOf events).foldl (fun attr b => b.toNat <<< 8 ||| attr &&& 0xf000) s.attr := by
  induction events generalizing s with
  | nil =>
    obtain rfl := Option.some.inj h
    rfl
  | cons e events ih =>
    rw [execAll, Option.bind_eq_some_iff] at h
    obtain ⟨u, hu, h⟩ := h
    rw [ih h, exec_attr hu, ← List.foldl_append, ← colorsOf_append]
    rfl

end

/-- The halves of the attribute that a color sets. -/
theorem setColor_halves {attr : Nat} (hattr : attr < 2 ^ 16) (b : UInt8) :
    b.toNat <<< 8 ||| attr &&& 0xf000 =
      4096 * (attr / 4096 ||| b.toNat / 16) + 256 * (b.toNat % 16) := by
  have hhigh : attr &&& 0xf000 = 4096 * (attr / 4096) := by
    apply Nat.eq_of_testBit_eq
    intro i
    rw [Nat.testBit_and, show 0xf000 = 2 ^ 12 * (2 ^ 4 - 1) by decide, show 4096 = 2 ^ 12 by decide,
      Nat.testBit_two_pow_mul, Nat.testBit_two_pow_mul, Nat.testBit_two_pow_sub_one,
      Nat.testBit_div_two_pow]
    by_cases hi : 12 ≤ i
    · by_cases hi' : i < 16
      · -- the four highest bits
        simp [hi, show i - 12 < 4 by omega]
      · -- bits above a word
        rw [Nat.sub_add_cancel hi, Nat.testBit_lt_two_pow (by
          calc attr < 2 ^ 16 := hattr
            _ ≤ 2 ^ i := Nat.pow_le_pow_right (by decide) (by omega))]
        simp
    · simp [hi]
  have hall : ∀ h < 16, ∀ h' < 16, ∀ l < 16, (16 * h' + l) <<< 8 ||| 4096 * h =
      4096 * (h ||| h') + 256 * l := by decide +kernel
  have hb := b.toNat_lt
  have := hall (attr / 4096) (by omega) (b.toNat / 16) (by omega) (b.toNat % 16) (by omega)
  rwa [Nat.div_add_mod, ← hhigh] at this

/-- A background has four bits. -/
theorem background_lt {bg : Nat} (hbg : bg < 16) (colors : List UInt8) :
    background bg colors < 16 := by
  induction colors generalizing bg with
  | nil => exact hbg
  | cons b colors ih =>
    have hb := b.toNat_lt
    exact ih (Nat.or_lt_two_pow (n := 4) hbg (by omega))

/-- The attribute after colors are set. -/
theorem foldl_setColor {attr : Nat} (hattr : attr < 2 ^ 16) (colors : List UInt8) (last : UInt8) :
    (colors ++ [last]).foldl (fun attr b => b.toNat <<< 8 ||| attr &&& 0xf000) attr =
      4096 * background (attr / 4096) (colors ++ [last]) + 256 * (last.toNat % 16) := by
  induction colors generalizing attr with
  | nil => exact setColor_halves hattr last
  | cons b colors ih =>
    have hb := b.toNat_lt
    have hlt : attr / 4096 ||| b.toNat / 16 < 16 :=
      Nat.or_lt_two_pow (n := 4) (by omega) (by omega)
    rw [List.cons_append, List.foldl_cons, setColor_halves hattr, ih (by omega)]
    rw [background, background, List.foldl_cons,
      show (4096 * (attr / 4096 ||| b.toNat / 16) + 256 * (b.toNat % 16)) / 4096 =
        attr / 4096 ||| b.toNat / 16 by omega]

/-- A union lies within a mask when both parts do. -/
theorem or_within {a b n : Nat} : a ||| b ||| n = n ↔ a ||| n = n ∧ b ||| n = n := by
  constructor
  · intro h
    constructor
    · calc a ||| n = a ||| (a ||| b ||| n) := by rw [h]
        _ = a ||| b ||| n := by rw [← Nat.or_assoc, ← Nat.or_assoc, Nat.or_self]
        _ = n := h
    · calc b ||| n = b ||| (a ||| b ||| n) := by rw [h]
        _ = a ||| b ||| n := by
          rw [Nat.or_comm a b, Nat.or_assoc b a n, ← Nat.or_assoc b b, Nat.or_self]
        _ = n := h
  · rintro ⟨ha, hb⟩
    rw [Nat.or_assoc, hb, ha]

/-- All backgrounds are within `n` when what they add up to is. -/
theorem background_within {bg n : Nat} {colors : List UInt8} :
    background bg colors ||| n = n ↔ bg ||| n = n ∧ ∀ b ∈ colors, b.toNat / 16 ||| n = n := by
  induction colors generalizing bg with
  | nil => simp [background]
  | cons b colors ih =>
    rw [List.forall_mem_cons, ← and_assoc, ← or_within]
    exact ih

/-- **The colors of the screen.** After any calls whose strings do not end behind an escape byte,
    the foreground is that of the last color, but the background is all backgrounds since the start
    put together; it is the one that the last color asks for only when that covers all earlier
    ones. -/
theorem screen_color {s s' : Console} (hattr : s.attr < 2 ^ 16) {calls : List VgaCall}
    (hvalid : ∀ c ∈ calls, c.Valid) (h : execAll VgaCall.exec s calls = some s')
    {colors : List UInt8} {last : UInt8}
    (hcolors : colorsOf (calls.flatMap VgaCall.events) = colors ++ [last]) :
    s'.attr = 4096 * background (s.attr / 4096) (colors ++ [last]) + 256 * (last.toNat % 16) ∧
      (s'.attr / 4096 = last.toNat / 16 ↔
        s.attr / 4096 ||| last.toNat / 16 = last.toNat / 16 ∧
          ∀ b ∈ colors, b.toNat / 16 ||| last.toNat / 16 = last.toNat / 16) := by
  rw [execAll_flatMap fun c hc s => VgaCall.exec_eq (hvalid c hc) s] at h
  have hs' := execAll_attr h
  rw [hcolors, foldl_setColor hattr] at hs'
  refine ⟨hs', ?_⟩
  have hsplit : background (s.attr / 4096) (colors ++ [last]) =
      background (s.attr / 4096) colors ||| last.toNat / 16 := by
    rw [background, List.foldl_append]
    rfl
  rw [← background_within, ← hsplit, hs',
    show (4096 * background (s.attr / 4096) (colors ++ [last]) + 256 * (last.toNat % 16)) / 4096 =
      background (s.attr / 4096) (colors ++ [last]) by omega]

/-- Light gray on blue, set behind green on red, is light gray on magenta. -/
theorem screen_color_magenta :
    ∃ s', execAll VgaCall.exec ⟨0, 0, 0x0f00, fun _ => 0, 0⟩
        [.printStr [27, 0x42], .printStr [27, 0x17]] = some s' ∧
      s'.attr = 0x5700 ∧ s'.attr / 4096 ≠ 1 := by
  refine ⟨_, rfl, ?_⟩
  have hvalid : ∀ c ∈ [VgaCall.printStr [27, 0x42], VgaCall.printStr [27, 0x17]], c.Valid := by
    intro c hc
    simp only [List.mem_cons, List.not_mem_nil, or_false] at hc
    obtain rfl | rfl := hc
    · exact ⟨by decide, trivial⟩
    · exact ⟨by decide, trivial⟩
  obtain ⟨hattr, hiff⟩ := @screen_color ⟨0, 0, 0x0f00, fun _ => 0, 0⟩ _ (by decide) _ hvalid rfl
    [0x42] 0x17 (by decide)
  exact ⟨hattr, fun h => absurd (hiff.mp h).2 (by decide)⟩

end Toutatis
