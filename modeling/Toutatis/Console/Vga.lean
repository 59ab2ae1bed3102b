import Toutatis.Lib.Memory
import Toutatis.Lib.Run

/-!
# The screen

A shallow embedding of `kernel/vga.c` with `memcpy` and `memsetw` of `kernel/string.c`. Video
memory is a memory of bytes, and a store to it outside of the `COLS * ROWS` cells of the
screen gives `none`, as does a text that is read beyond its end. The position of the
hardware cursor is kept, the ports it is set through are not.

## Key results

- `movs_spec`: a forward copy to a lower address moves the old bytes
- `vgaScroll_spec`: every line moves up and the last one becomes blank
- `screen_ok`: the cursor and all stores stay on the screen, for all calls
-/

namespace Toutatis

open ByteMem Run

/-! ## Video memory -/

/-- `COLS`, `ROWS` and `video_mem`. -/
def cols : Nat := 80

@[inherit_doc cols]
def rows : Nat := 25

@[inherit_doc cols]
def videoMem : Nat := 0xc00b8000

/-- A store of one byte. -/
def poke (v : Mem) (a : Nat) (x : UInt8) : Option Mem :=
  if videoMem ≤ a ∧ a < videoMem + 2 * (cols * rows) then some (Function.update v a x) else none

/-- A store of several bytes. -/
def pokeAll : Mem → Nat → List UInt8 → Option Mem
  | v, _, [] => some v
  | v, a, x :: xs => (poke v a x).bind fun v => pokeAll v (a + 1) xs

/-- The bytes of a 16-bit word, in the order of memory. -/
def le16 (value : Nat) : List UInt8 := [UInt8.ofNat value, UInt8.ofNat (value / 256)]

/-- The contents of a cell. -/
def cell (v : Mem) (i : Nat) : Nat :=
  (v (videoMem + 2 * i)).toNat + (v (videoMem + 2 * i + 1)).toNat * 256

/-- `rep movsb` (`width` 1) or `rep movsl` (`width` 4), with the direction flag clear. -/
def movs (width : Nat) : (n : Nat) → Mem → (dst src : Nat) → Option Mem
  | 0, v, _, _ => some v
  | n + 1, v, dst, src =>
    (pokeAll v dst ((List.range width).map fun k => v (src + k))).bind fun v =>
      movs width n v (dst + width) (src + width)

/-- `rep stosw`: `n` words from address `a` on. -/
def stosw (value : Nat) : (n : Nat) → Mem → (a : Nat) → Option Mem
  | 0, v, _ => some v
  | n + 1, v, a => (pokeAll v a (le16 value)).bind fun v => stosw value n v (a + 2)

/-- `memcpy` -/
def memcpy (v : Mem) (dst src n : Nat) : Option Mem :=
  if (dst ||| src ||| n) &&& 3 ≠ 0 then movs 1 n v dst src else movs 4 (n / 4) v dst src

/-- `memsetw` -/
def memsetw (v : Mem) (ptr value n : Nat) : Option Mem := stosw value n v ptr

/-! ## The console -/

/-- The variables of `vga.c` (`attr` is `attribute`), video memory and the hardware cursor. -/
structure Console where
  xpos : Nat
  ypos : Nat
  attr : Nat
  video : Mem
  cursor : Nat

/-- `set_cursor_pos` -/
def setCursorPos (s : Console) (x y : Nat) : Console :=
  { s with cursor := (y * cols + x) % 2 ^ 16 }

/-- `vga_clear` -/
def vgaClear (s : Console) : Option Console :=
  (stosw (0x20 ||| s.attr) (cols * rows) s.video videoMem).map fun v =>
    setCursorPos { s with video := v, xpos := 0, ypos := 0 } 0 0

/-- `vga_init` -/
def vgaInit (s : Console) : Option Console :=
  vgaClear { s with xpos := s.cursor % cols, ypos := s.cursor / cols }

/-- `set_pos` -/
def setPos (s : Console) (x y : Nat) : Console := { s with xpos := x % cols, ypos := y % rows }

/-- `vga_set_attribute(b << 8 | (attribute & 0xf000))` -/
def vgaSetColor (s : Console) (b : UInt8) : Console :=
  { s with attr := b.toNat <<< 8 ||| s.attr &&& 0xf000 }

/-- `vga_scroll` -/
def vgaScroll (s : Console) : Option Console :=
  if s.ypos ≥ rows then
    let temp : Nat := (s.ypos - rows + 1) % 2 ^ 16
    let left : Int := rows - temp
    (memcpy s.video videoMem (videoMem + temp * cols * 2)
        (left * cols * 2 % 2 ^ 32).toNat).bind fun v =>
      (memsetw v ((videoMem + left * cols * 2) % 2 ^ 32).toNat (0x20 ||| s.attr) cols).map
        fun v => { s with video := v, ypos := rows - 1 }
  else some s

/-- The first part of `vga_print_char`: the character itself. `char` is signed. -/
def vgaPut (s : Console) (c : UInt8) : Option Console :=
  if c = 8 then
    if s.xpos > 0 then some { s with xpos := s.xpos - 1 }
    else if s.ypos > 0 then some { s with xpos := cols - 1, ypos := s.ypos - 1 }
    else some s
  else if c = 9 then some { s with xpos := (s.xpos + 8) &&& 0xfff8 }
  else if c = 13 then some { s with xpos := 0 }
  else if c = 10 then some { s with xpos := 0, ypos := (s.ypos + 1) % 2 ^ 16 }
  else if 0x20 ≤ c.toNat ∧ c.toNat < 0x80 then
    (pokeAll s.video (videoMem + 2 * (s.ypos * cols + s.xpos)) (le16 (c.toNat ||| s.attr))).map
      fun v => { s with video := v, xpos := (s.xpos + 1) % 2 ^ 16 }
  else some s

/-- The second part of `vga_print_char`: a line that is full is left. -/
def vgaWrap (s : Console) : Console :=
  if s.xpos ≥ cols then { s with xpos := 0, ypos := (s.ypos + 1) % 2 ^ 16 } else s

/-- `vga_print_char` -/
def vgaPrintChar (s : Console) (c : UInt8) : Option Console :=
  (vgaPut s c).bind fun s => (vgaScroll (vgaWrap s)).map fun s => setCursorPos s s.xpos s.ypos

/-- The loop of `vga_write`, from the byte `i` on. -/
def vgaWriteLoop (data : Nat → UInt8) (len : Nat) :
    (fuel i : Nat) → Console → Option (Nat × Console)
  | 0, i, s => some (i, s)
  | fuel + 1, i, s =>
    if data i ≠ 0 ∧ i < len then
      if data i = 27 then vgaWriteLoop data len fuel (i + 2) (vgaSetColor s (data (i + 1)))
      else (vgaPrintChar s (data i)).bind (vgaWriteLoop data len fuel (i + 1))
    else some (i, s)

/-- `vga_write`; `data` is what lies at the address it is given. Its loop is left after `len`
    passes at most. -/
def vgaWrite (s : Console) (data : Nat → UInt8) (len : Nat) : Option (Nat × Console) :=
  vgaWriteLoop data len len 0 s

/-- `vga_print_str`; `str` is the text up to its terminator, behind which nothing is known. -/
def vgaPrintStr : Console → List UInt8 → Option Console
  | s, [] => some s
  | s, c :: str =>
    if c = 0 then some s
    else if c = 27 then
      match str with
      | [] => none
      | b :: str => vgaPrintStr (vgaSetColor s b) str
    else (vgaPrintChar s c).bind fun s => vgaPrintStr s str

/-- A call. -/
inductive VgaCall where
  | clear
  | setPos (x y : Nat)
  | printChar (c : UInt8)
  | write (data : Nat → UInt8) (len : Nat)
  | printStr (str : List UInt8)

/-- One call. -/
def VgaCall.exec (s : Console) : VgaCall → Option Console
  | .clear => vgaClear s
  | .setPos x y => some (Toutatis.setPos s x y)
  | .printChar c => vgaPrintChar s c
  | .write data len => (vgaWrite s data len).map Prod.snd
  | .printStr str => vgaPrintStr s str

/-! ## Stores to video memory -/

section

variable {v : Mem} {a dst src n width : Nat}

/-- Bytes stored one after the other within the video memory. -/
theorem pokeAll_spec {xs : List UInt8} (hlow : videoMem ≤ a)
    (hhigh : a + xs.length ≤ videoMem + 2 * (cols * rows)) :
    ∃ v', pokeAll v a xs = some v' ∧ Holds v' a xs ∧
      ∀ x, x < a ∨ a + xs.length ≤ x → v' x = v x := by
  induction xs generalizing v a with
  | nil => exact ⟨v, rfl, fun k b hk => by simp at hk, fun _ _ => rfl⟩
  | cons b xs ih =>
    rw [List.length_cons] at hhigh
    -- every single store is on the screen
    have hpoke : poke v a b = some (Function.update v a b) := if_pos ⟨hlow, by omega⟩
    obtain ⟨v', hv', hholds, hframe⟩ := @ih (Function.update v a b) (a + 1) (by omega) (by omega)
    refine ⟨v', ?_, fun k c hk => ?_, fun x hx => ?_⟩
    · rw [pokeAll, hpoke, Option.bind_some]
      exact hv'
    · cases k with
      | zero =>
        rw [hframe _ (by omega), Nat.add_zero, Function.update_self]
        simpa using hk
      | succ k =>
        rw [← hholds k c hk]
        exact congrArg v' (by omega)
    · rw [List.length_cons] at hx
      rw [hframe x (by omega), Function.update_of_ne (by omega)]

/-- **A forward copy** to a lower address moves the old bytes, also when the two ranges
    overlap. -/
theorem movs_spec (hlow : videoMem ≤ dst)
    (hhigh : dst + width * n ≤ videoMem + 2 * (cols * rows)) (hle : dst ≤ src) :
    ∃ v', movs width n v dst src = some v' ∧ (∀ k < width * n, v' (dst + k) = v (src + k)) ∧
      ∀ x, x < dst ∨ dst + width * n ≤ x → v' x = v x := by
  induction n generalizing v dst src with
  | zero => exact ⟨v, rfl, by simp, fun _ _ => rfl⟩
  | succ n ih =>
    rw [Nat.mul_succ] at hhigh ⊢
    obtain ⟨v₁, hv₁, hholds, hframe₁⟩ := @pokeAll_spec v dst
      ((List.range width).map fun k => v (src + k)) hlow (by simp; omega)
    simp only [List.length_map, List.length_range] at hframe₁
    obtain ⟨v', hv', hmoved, hframe⟩ := @ih v₁ (dst + width) (src + width) (by omega) (by omega)
      (by omega)
    refine ⟨v', ?_, fun k hk => ?_, fun x hx => ?_⟩
    · rw [movs, hv₁, Option.bind_some]
      exact hv'
    · by_cases hlt : k < width
      · rw [hframe _ (by omega)]
        refine hholds k _ ?_
        rw [List.getElem?_map, List.getElem?_range hlt, Option.map_some]
      · -- the bytes of later passes were not touched by this one
        obtain ⟨j, rfl⟩ := Nat.exists_eq_add_of_le (Nat.le_of_not_lt hlt)
        rw [← Nat.add_assoc, ← Nat.add_assoc, hmoved j (by omega)]
        exact hframe₁ _ (by omega)
    · rw [hframe x (by omega), hframe₁ x (by omega)]

/-- `rep stosw` fills as many cells as it counts, within the video memory. -/
theorem stosw_spec {value : Nat} (hlow : videoMem ≤ a)
    (hhigh : a + 2 * n ≤ videoMem + 2 * (cols * rows)) :
    ∃ v', stosw value n v a = some v' ∧ (∀ i < n, Holds v' (a + 2 * i) (le16 value)) ∧
      ∀ x, x < a ∨ a + 2 * n ≤ x → v' x = v x := by
  induction n generalizing v a with
  | zero => exact ⟨v, rfl, by simp, fun _ _ => rfl⟩
  | succ n ih =>
    -- one word, then the others behind it
    obtain ⟨v₁, hv₁, hholds, hframe₁⟩ := @pokeAll_spec v a (le16 value) hlow
      (by simp only [le16, List.length_cons, List.length_nil]; omega)
    simp only [le16, List.length_cons, List.length_nil] at hframe₁
    obtain ⟨v', hv', hmoved, hframe⟩ := @ih v₁ (a + 2) (by omega) (by omega)
    refine ⟨v', ?_, fun i hi => ?_, fun x hx => ?_⟩
    · rw [stosw, hv₁, Option.bind_some]
      exact hv'
    · cases i with
      | zero =>
        refine hholds.congr fun x hx hlt => hframe x ?_
        simp only [le16, List.length_cons, List.length_nil] at hlt
        omega
      | succ i =>
        have := hmoved i (by omega)
        rwa [show a + 2 + 2 * i = a + 2 * (i + 1) by omega] at this
    · rw [hframe x (by omega), hframe₁ x (by omega)]

/-- The two bytes of a cell are its word. -/
theorem cell_of_holds {value i : Nat} (h : Holds v (videoMem + 2 * i) (le16 value))
    (hvalue : value < 2 ^ 16) : cell v i = value := by
  have h0 := h 0 _ rfl
  have h1 := h 1 _ rfl
  rw [Nat.add_zero] at h0
  rw [cell, h0, h1, UInt8.toNat_ofNat', UInt8.toNat_ofNat']
  omega

end

/-! ## Scrolling -/

/-- What scrolling does to the cells: every line becomes the one below it, and the last one
    becomes blanks of the current colour. -/
structure Scrolled (old new : Mem) (attr : Nat) : Prop where
  up : ∀ r < rows - 1, ∀ x < cols, cell new (r * cols + x) = cell old ((r + 1) * cols + x)
  blank : ∀ x < cols, cell new ((rows - 1) * cols + x) = 0x20 ||| attr

/-- **`vga_scroll`** one row below the last. -/
theorem vgaScroll_spec {s : Console} (hy : s.ypos = rows) (hattr : s.attr < 2 ^ 16) :
    ∃ v, vgaScroll s = some { s with video := v, ypos := rows - 1 } ∧
      Scrolled s.video v s.attr := by
  -- the rows are moved up, then the last one is cleared
  obtain ⟨v₁, hv₁, hmoved, hframe₁⟩ := @movs_spec s.video videoMem (videoMem + 160) 960 4
    (le_refl _) (by decide) (by decide)
  obtain ⟨v₂, hv₂, hholds, hframe₂⟩ := @stosw_spec v₁ (videoMem + 3840) cols
    (0x20 ||| s.attr) (by decide) (by decide)
  have hcopy : memcpy s.video videoMem (videoMem + 160) 3840 = some v₁ := by
    rw [memcpy, if_neg (by decide)]
    exact hv₁
  have hmoved' : ∀ k < 3840, v₂ (videoMem + k) = s.video (videoMem + 160 + k) := by
    intro k hk
    rw [hframe₂ _ (by omega), hmoved k hk]
  refine ⟨v₂, ?_, fun r hr x hx => ?_, fun x hx => ?_⟩
  · rw [vgaScroll, if_pos (le_of_eq hy.symm), hy]
    change (memcpy s.video videoMem (videoMem + 160) 3840).bind _ = _
    rw [hcopy, Option.bind_some]
    change (stosw (0x20 ||| s.attr) cols v₁ (videoMem + 3840)).map _ = _
    rw [hv₂, Option.map_some]
  · rw [rows] at hr
    rw [cols] at hx ⊢
    have hlow := hmoved' (2 * (r * 80 + x)) (by omega)
    have hhigh := hmoved' (2 * (r * 80 + x) + 1) (by omega)
    rw [show videoMem + 160 + 2 * (r * 80 + x) = videoMem + 2 * ((r + 1) * 80 + x) by omega]
      at hlow
    rw [← Nat.add_assoc, show videoMem + 160 + (2 * (r * 80 + x) + 1) =
      videoMem + 2 * ((r + 1) * 80 + x) + 1 by omega] at hhigh
    rw [cell, cell, hlow, hhigh]
  · refine cell_of_holds ?_ (Nat.or_lt_two_pow (by decide) hattr)
    have := hholds x hx
    rw [show videoMem + 3840 + 2 * x = videoMem + 2 * ((rows - 1) * cols + x) by
      simp only [rows, cols]; omega] at this
    exact this

/-! ## The cursor -/

/-- The cursor is on the screen. -/
structure ScreenOk (s : Console) : Prop where
  xpos_lt : s.xpos < cols
  ypos_lt : s.ypos < rows
  attr_lt : s.attr < 2 ^ 16

section

variable {s : Console}

/-- The mask of the tabulator rounds up to a multiple of 8. -/
theorem tab_stop (x : Nat) (hx : x < 80) : (x + 8) &&& 0xfff8 = (x + 8) / 8 * 8 := by
  revert x
  decide

/-- The character itself leaves the cursor on the screen, at the end of a line, or in the row
    below the last. -/
theorem vgaPut_spec (h : ScreenOk s) (c : UInt8) :
    ∃ m, vgaPut s c = some m ∧ m.attr = s.attr ∧
      (m.xpos < cols ∧ m.ypos ≤ rows ∨ m.xpos = cols ∧ m.ypos < rows) := by
  obtain ⟨hx, hy, hattr⟩ := h
  rw [cols] at hx
  rw [rows] at hy
  rw [vgaPut]
  split
  · -- backspace
    split
    · exact ⟨_, rfl, rfl, Or.inl ⟨by simp only [cols]; omega, by simp only [rows]; omega⟩⟩
    · split
      · exact ⟨_, rfl, rfl, Or.inl ⟨by simp only [cols]; omega, by simp only [rows]; omega⟩⟩
      · exact ⟨_, rfl, rfl, Or.inl ⟨hx, by simp only [rows]; omega⟩⟩
  · split
    · -- tab
      refine ⟨_, rfl, rfl, ?_⟩
      simp only [tab_stop _ hx, cols, rows]
      omega
    · split
      · exact ⟨_, rfl, rfl, Or.inl ⟨by simp only [cols]; omega, by simp only [rows]; omega⟩⟩
      · split
        · exact ⟨_, rfl, rfl, Or.inl ⟨by simp only [cols]; omega, by simp only [rows]; omega⟩⟩
        · split
          · -- a printable character goes to the cell of the cursor
            obtain ⟨v, hv, -, -⟩ := @pokeAll_spec s.video
              (videoMem + 2 * (s.ypos * cols + s.xpos)) (le16 (c.toNat ||| s.attr))
              (Nat.le_add_right _ _)
              (by simp only [le16, List.length_cons, List.length_nil, cols, rows]; omega)
            rw [hv, Option.map_some]
            refine ⟨_, rfl, rfl, ?_⟩
            simp only [cols, rows]
            omega
          · exact ⟨_, rfl, rfl, Or.inl ⟨hx, by simp only [rows]; omega⟩⟩

/-- **One character.** -/
theorem vgaPrintChar_spec (h : ScreenOk s) (c : UInt8) :
    ∃ m t, vgaPut s c = some m ∧ vgaPrintChar s c = some t ∧ ScreenOk t ∧
      if (vgaWrap m).ypos ≥ rows then Scrolled m.video t.video s.attr else t.video = m.video := by
  obtain ⟨m, hm, hattr, hpos⟩ := vgaPut_spec h c
  have hattr_lt := h.attr_lt
  rw [cols, rows] at hpos
  -- after the end of a line
  have hwrap : (vgaWrap m).xpos < 80 ∧ (vgaWrap m).ypos ≤ 25 ∧ (vgaWrap m).attr = s.attr ∧
      (vgaWrap m).video = m.video := by
    rw [vgaWrap, cols]
    split
    · refine ⟨Nat.zero_lt_succ _, ?_, hattr, rfl⟩
      simp only
      omega
    · exact ⟨by omega, by omega, hattr, rfl⟩
  obtain ⟨hx, hy, hwattr, hvideo⟩ := hwrap
  by_cases hrow : (vgaWrap m).ypos = rows
  · obtain ⟨v, hv, hscrolled⟩ := vgaScroll_spec hrow (by omega)
    refine ⟨m, setCursorPos { vgaWrap m with video := v, ypos := rows - 1 } (vgaWrap m).xpos
      (rows - 1), hm, ?_, ?_, ?_⟩
    · rw [vgaPrintChar, hm, Option.bind_some, hv, Option.map_some]
    · exact ⟨hx, by simp only [setCursorPos]; decide, by simp only [setCursorPos]; omega⟩
    · rw [if_pos (le_of_eq hrow.symm), ← hvideo, ← hwattr]
      exact hscrolled
  · have hlt : (vgaWrap m).ypos < rows := by
      rw [rows] at hrow ⊢
      omega
    refine ⟨m, setCursorPos (vgaWrap m) (vgaWrap m).xpos (vgaWrap m).ypos, hm, ?_, ?_, ?_⟩
    · rw [vgaPrintChar, hm, Option.bind_some, vgaScroll, if_neg (by omega), Option.map_some]
    · exact ⟨hx, hlt, by simp only [setCursorPos]; omega⟩
    · rw [if_neg (by omega)]
      exact hvideo

/-- `vga_clear` leaves a screen with the cursor on it. -/
theorem ScreenOk.clear (hattr : s.attr < 2 ^ 16) : ∃ t, vgaClear s = some t ∧ ScreenOk t := by
  obtain ⟨v, hv, -, -⟩ := @stosw_spec s.video videoMem (cols * rows) (0x20 ||| s.attr)
    (le_refl _) (le_refl _)
  refine ⟨setCursorPos { s with video := v, xpos := 0, ypos := 0 } 0 0, ?_, ?_⟩
  · rw [vgaClear, hv, Option.map_some]
  · exact ⟨by simp only [setCursorPos]; decide, by simp only [setCursorPos]; decide, hattr⟩

/-- So does a new position of the cursor. -/
theorem ScreenOk.setPos (h : ScreenOk s) (x y : Nat) : ScreenOk (Toutatis.setPos s x y) :=
  ⟨Nat.mod_lt _ (by decide), Nat.mod_lt _ (by decide), h.attr_lt⟩

/-- A color keeps the cursor where it is. -/
theorem ScreenOk.setColor (h : ScreenOk s) (b : UInt8) : ScreenOk (vgaSetColor s b) := by
  refine ⟨h.xpos_lt, h.ypos_lt, Nat.or_lt_two_pow ?_ ?_⟩
  · have := b.toNat_lt
    rw [Nat.shiftLeft_eq]
    omega
  · exact lt_of_le_of_lt Nat.and_le_right (by decide)

end

/-! ## Calls and their events -/

/-- What a call consists of. -/
inductive VgaEvent where
  | clear
  | setPos (x y : Nat)
  | char (c : UInt8)
  | color (b : UInt8)

/-- One event. -/
def VgaEvent.exec (s : Console) : VgaEvent → Option Console
  | .clear => vgaClear s
  | .setPos x y => some (Toutatis.setPos s x y)
  | .char c => vgaPrintChar s c
  | .color b => some (vgaSetColor s b)

/-- The events of the loop of `vga_write`. -/
def writeEvents (data : Nat → UInt8) (len : Nat) : (fuel i : Nat) → List VgaEvent
  | 0, _ => []
  | fuel + 1, i =>
    if data i ≠ 0 ∧ i < len then
      if data i = 27 then .color (data (i + 1)) :: writeEvents data len fuel (i + 2)
      else .char (data i) :: writeEvents data len fuel (i + 1)
    else []

/-- The events of `vga_print_str`. -/
def strEvents : List UInt8 → List VgaEvent
  | [] => []
  | c :: str =>
    if c = 0 then []
    else if c = 27 then
      match str with
      | [] => []
      | b :: str => .color b :: strEvents str
    else .char c :: strEvents str

/-- The events of a call. -/
def VgaCall.events : VgaCall → List VgaEvent
  | .clear => [.clear]
  | .setPos x y => [.setPos x y]
  | .printChar c => [.char c]
  | .write data len => writeEvents data len len 0
  | .printStr str => strEvents str

/-- Every escape byte of a text is followed by an attribute. -/
def Escaped : List UInt8 → Prop
  | [] => True
  | c :: str =>
    if c = 27 then
      match str with
      | [] => False
      | b :: str => b ≠ 0 ∧ Escaped str
    else Escaped str

/-- The texts of a call are well formed. -/
def VgaCall.Valid : VgaCall → Prop
  | .printStr str => Escaped str
  | _ => True

/-- The loop of `vga_write` as a run of characters and colors. -/
theorem vgaWriteLoop_events (data : Nat → UInt8) (len fuel i : Nat) (s : Console) :
    (vgaWriteLoop data len fuel i s).map Prod.snd =
      execAll VgaEvent.exec s (writeEvents data len fuel i) := by
  induction fuel generalizing i s with
  | zero => rfl
  | succ fuel ih =>
    rw [vgaWriteLoop, writeEvents]
    split
    · split
      · rw [ih]
        rfl
      · rw [execAll, Option.map_bind]
        exact congrArg _ (funext fun t => ih _ t)
    · rfl

/-- `vga_print_str` as a run of characters and colors. -/
theorem vgaPrintStr_events {str : List UInt8} (h : Escaped str) (s : Console) :
    vgaPrintStr s str = execAll VgaEvent.exec s (strEvents str) := by
  induction str using strEvents.induct generalizing s with
  | case1 => rw [vgaPrintStr, strEvents, execAll]
  | case2 str =>
    cases str <;> rfl
  | case3 => exact h.elim
  | case4 b str hne ih =>
    rw [vgaPrintStr, strEvents]
    exact ih h.2 _
  | case5 c str hne hesc ih =>
    have htail : Escaped str := by
      cases str with
      | nil => trivial
      | cons b str => simpa only [Escaped, if_neg hesc] using h
    have hexec : vgaPrintStr s (c :: str) = (vgaPrintChar s c).bind fun s => vgaPrintStr s str := by
      cases str <;> simp only [vgaPrintStr, if_neg hne, if_neg hesc]
    have hevents : strEvents (c :: str) = .char c :: strEvents str := by
      cases str <;> simp only [strEvents, if_neg hne, if_neg hesc]
    rw [hexec, hevents, execAll]
    exact congrArg _ (funext fun t => ih htail t)

/-- A call is the run of its events. -/
theorem VgaCall.exec_eq {c : VgaCall} (h : c.Valid) (s : Console) :
    c.exec s = execAll VgaEvent.exec s c.events := by
  cases c with
  | clear =>
    rw [exec, events, execAll, VgaEvent.exec]
    exact (Option.bind_fun_some _).symm
  | setPos x y => rfl
  | printChar c =>
    rw [exec, events, execAll, VgaEvent.exec]
    exact (Option.bind_fun_some _).symm
  | write data len => exact vgaWriteLoop_events data len len 0 s
  | printStr str => exact vgaPrintStr_events h s

/-- **One event.** -/
theorem ScreenOk.exec {s : Console} (h : ScreenOk s) (e : VgaEvent) :
    ∃ t, e.exec s = some t ∧ ScreenOk t := by
  cases e with
  | clear =>
    rw [VgaEvent.exec]
    exact ScreenOk.clear h.attr_lt
  | setPos x y => exact ⟨_, rfl, h.setPos x y⟩
  | char c =>
    obtain ⟨m, t, -, ht, hok, -⟩ := vgaPrintChar_spec h c
    exact ⟨t, ht, hok⟩
  | color b => exact ⟨_, rfl, h.setColor b⟩

/-- **The screen.** After `vga_init`, every run of calls returns, so no store leaves the
    screen. After each of its characters the cursor is on the screen; and when a character
    moves it below the last row, every row becomes the one below it, and the last row blanks
    of the current colour, while otherwise only the cell of the character changes. -/
theorem screen_ok {s₀ : Console} (hattr : s₀.attr < 2 ^ 16) {calls : List VgaCall}
    (hvalid : ∀ c ∈ calls, c.Valid) :
    ∃ s₁ s', vgaInit s₀ = some s₁ ∧ execAll VgaCall.exec s₁ calls = some s' ∧
      execAll VgaEvent.exec s₁ (calls.flatMap VgaCall.events) = some s' ∧
      ∀ (pre post : List VgaEvent) (e : VgaEvent), calls.flatMap VgaCall.events = pre ++ e :: post →
        ∃ s t, execAll VgaEvent.exec s₁ pre = some s ∧ e.exec s = some t ∧
          t.xpos < cols ∧ t.ypos < rows ∧
          ∀ c, e = .char c → ∃ m, vgaPut s c = some m ∧
            if (vgaWrap m).ypos ≥ rows then Scrolled m.video t.video s.attr
            else t.video = m.video := by
  obtain ⟨s₁, hs₁, hok₁⟩ : ∃ s₁, vgaInit s₀ = some s₁ ∧ ScreenOk s₁ := by
    rw [vgaInit]
    exact ScreenOk.clear hattr
  have hrun : ∀ events, ∃ s, execAll VgaEvent.exec s₁ events = some s ∧ ScreenOk s := by
    intro events
    have hall : Each VgaEvent.exec (fun _ _ => True) s₁ events :=
      each_of_forall fun _ _ _ => trivial
    exact exists_execAll (fun s e h _ => h.exec e) hok₁ hall
  obtain ⟨s', hs', -⟩ := hrun (calls.flatMap VgaCall.events)
  -- a call is the run of its events
  have hcalls : execAll VgaCall.exec s₁ calls = some s' := by
    rw [execAll_flatMap fun c hc s => VgaCall.exec_eq (hvalid c hc) s]
    exact hs'
  refine ⟨s₁, s', hs₁, hcalls, hs', fun pre post e _ => ?_⟩
  obtain ⟨s, hs, hok⟩ := hrun pre
  cases e with
  | char c =>
    obtain ⟨m, t, hm, ht, hokt, hscroll⟩ := vgaPrintChar_spec hok c
    have hexec : (VgaEvent.char c).exec s = some t := by
      rw [VgaEvent.exec, ht]
    refine ⟨s, t, hs, hexec, hokt.xpos_lt, hokt.ypos_lt, fun d hd => ?_⟩
    obtain rfl : c = d := by simpa using hd
    exact ⟨m, hm, hscroll⟩
  | clear =>
    obtain ⟨t, ht, hokt⟩ := hok.exec .clear
    exact ⟨s, t, hs, ht, hokt.xpos_lt, hokt.ypos_lt, by simp⟩
  | setPos x y =>
    obtain ⟨t, ht, hokt⟩ := hok.exec (.setPos x y)
    exact ⟨s, t, hs, ht, hokt.xpos_lt, hokt.ypos_lt, by simp⟩
  | color b =>
    obtain ⟨t, ht, hokt⟩ := hok.exec (.color b)
    exact ⟨s, t, hs, ht, hokt.xpos_lt, hokt.ypos_lt, by simp⟩

/-- A line feed behind a text with an escape, on a cleared screen. -/
theorem screen_ok_text :
    ∃ s₁ s', vgaInit ⟨0, 0, 0x0f00, fun _ => 0, 0⟩ = some s₁ ∧
      execAll VgaCall.exec s₁ [.printStr [27, 7, 65], .setPos 79 24, .printChar 10] = some s' := by
  obtain ⟨s₁, s', hs₁, hs', -⟩ := @screen_ok ⟨0, 0, 0x0f00, fun _ => 0, 0⟩ (by decide)
    [.printStr [27, 7, 65], .setPos 79 24, .printChar 10] (by
      intro c hc
      simp only [List.mem_cons, List.not_mem_nil, or_false] at hc
      rcases hc with rfl | rfl | rfl
      · exact ⟨by decide, trivial⟩
      · trivial
      · trivial)
  exact ⟨s₁, s', hs₁, hs'⟩

end Toutatis
