import Toutatis.Console.Vga
import Toutatis.Strings.Text

/-!
# The two console writers

`vga_print_str` of `kernel/vga.c` over a string in memory, and its agreement with `vga_write`. Both
step over the byte behind an escape byte without a look at it. When a string ends with an escape
byte, that byte is its terminator, and both go on behind it.

The index that a loop leaves is the one of the last byte that it has read. The attribute of
`vga_print_str` is a signed `char`, whose sign does not get into the 16 bits of `attribute`.

## Key results

- `printStrLoop_text` and `vgaWriteLoop_text`: both print an escaped text, up to its terminator
- `vgaWriteLoop_beyond`: `vga_write` reads behind the terminator of any other text
- `writers_agree_iff`: when the two writers agree
-/

namespace Toutatis

open ByteMem Run Strings

/-- The loop of `vga_print_str`, from the byte `i` on: the index of the last byte read. -/
def printStrLoop (str : Nat → UInt8) : (fuel i : Nat) → Console → Option (Nat × Console)
  | 0, _, _ => none
  | fuel + 1, i, s =>
    if str i ≠ 0 then
      if str i = 27 then printStrLoop str fuel (i + 2) (vgaSetColor s (str (i + 1)))
      else (vgaPrintChar s (str i)).bind (printStrLoop str fuel (i + 1))
    else some (i, s)

/-- `vga_print_str`; `str` is what lies at the address it is given. -/
def printStr (s : Console) (str : Nat → UInt8) : Option (Nat × Console) :=
  printStrLoop str (2 ^ 32) 0 s

/-! ## Escaped texts -/

section

variable {data : Nat → UInt8} {l : List UInt8} {s t : Console} {fuel len i j : Nat}

/-- An escape byte takes the next byte with it. -/
theorem escape_induction {P : List UInt8 → Prop} (nil : P []) (last : P [27])
    (esc : ∀ b l, P l → P (27 :: b :: l)) (char : ∀ c l, c ≠ 27 → P l → P (c :: l)) :
    ∀ l, P l
  | [] => nil
  | [c] => by
    by_cases hc : c = 27
    · rw [hc]
      exact last
    · exact char c [] hc nil
  | c :: b :: l => by
    by_cases hc : c = 27
    · rw [hc]
      exact esc b l (escape_induction nil last esc char l)
    · exact char c (b :: l) hc (escape_induction nil last esc char (b :: l))

/-- A plain character in front of a string does not matter. -/
theorem escaped_cons_iff {c : UInt8} (hc : c ≠ 27) : Escaped (c :: l) ↔ Escaped l := by
  cases l with
  | nil => exact iff_of_eq (if_neg hc)
  | cons b l => exact iff_of_eq (if_neg hc)

/-- `vga_print_str` prints a plain character and goes on. -/
theorem vgaPrintStr_cons (s : Console) {c : UInt8} (h0 : c ≠ 0) (hc : c ≠ 27) :
    vgaPrintStr s (c :: l) = (vgaPrintChar s c).bind fun s => vgaPrintStr s l := by
  cases l <;> simp only [vgaPrintStr, if_neg h0, if_neg hc]

/-- **`vga_print_str`** prints an escaped text and reads up to its terminator. -/
theorem printStrLoop_text (h : Text data i l) (he : Escaped l) (hfuel : l.length < fuel) :
    printStrLoop data fuel i s = (vgaPrintStr s l).map fun t => (i + l.length, t) := by
  induction l using escape_induction generalizing fuel i s with
  | nil =>
    cases fuel with
    | zero => exact absurd hfuel (Nat.not_lt_zero _)
    | succ fuel =>
      unfold printStrLoop
      rw [h.nil, if_neg (by decide)]
      rfl
  | last => exact he.elim
  | esc b l ih =>
    simp only [List.length_cons] at hfuel ⊢
    cases fuel with
    | zero => exact absurd hfuel (Nat.not_lt_zero _)
    | succ fuel =>
      have hnext : data (i + 1) = b := h.tail.head
      unfold printStrLoop
      -- the escape byte and the colour behind it, then the rest of the text
      rw [h.head, if_pos (by decide), if_pos rfl, hnext, ih h.tail.tail he.2 (by omega),
        show i + 2 + l.length = i + (l.length + 1 + 1) by omega]
      rfl
  | char c l hc ih =>
    simp only [List.length_cons] at hfuel ⊢
    cases fuel with
    | zero => exact absurd hfuel (Nat.not_lt_zero _)
    | succ fuel =>
      have hzero : c ≠ 0 := h.nonzero c List.mem_cons_self
      have htail := (escaped_cons_iff hc).mp he
      unfold printStrLoop
      rw [h.head, if_pos hzero, if_neg hc, vgaPrintStr_cons s hzero hc, Option.map_bind]
      -- both go on in the console that the character leaves
      congr 1
      funext t
      rw [ih h.tail htail (by omega), show i + 1 + l.length = i + (l.length + 1) by omega]
      rfl

/-- **`vga_write`** with room for the text prints it and reads up to its terminator. -/
theorem vgaWriteLoop_text (h : Text data i l) (he : Escaped l) (hfuel : l.length ≤ fuel)
    (hlen : i + l.length ≤ len) :
    vgaWriteLoop data len fuel i s = (vgaPrintStr s l).map fun t => (i + l.length, t) := by
  induction l using escape_induction generalizing fuel i s with
  | nil =>
    -- the terminator, or the end of the length
    cases fuel with
    | zero => rfl
    | succ fuel =>
      unfold vgaWriteLoop
      rw [if_neg (fun hgo => hgo.1 h.nil)]
      rfl
  | last => exact he.elim
  | esc b l ih =>
    simp only [List.length_cons] at hfuel hlen ⊢
    cases fuel with
    | zero => exact absurd hfuel (Nat.not_succ_le_zero _)
    | succ fuel =>
      have hhead : data i = 27 := h.head
      have hnext : data (i + 1) = b := h.tail.head
      unfold vgaWriteLoop
      rw [if_pos ⟨by rw [hhead]; decide, by omega⟩, if_pos hhead, hnext,
        ih h.tail.tail he.2 (by omega) (by omega),
        show i + 2 + l.length = i + (l.length + 1 + 1) by omega]
      rfl
  | char c l hc ih =>
    simp only [List.length_cons] at hfuel hlen ⊢
    cases fuel with
    | zero => exact absurd hfuel (Nat.not_succ_le_zero _)
    | succ fuel =>
      have hhead : data i = c := h.head
      have hzero : c ≠ 0 := h.nonzero c List.mem_cons_self
      have htail := (escaped_cons_iff hc).mp he
      unfold vgaWriteLoop
      rw [if_pos ⟨by rw [hhead]; exact hzero, by omega⟩, if_neg (by rw [hhead]; exact hc), hhead,
        vgaPrintStr_cons s hzero hc, Option.map_bind]
      congr 1
      funext t
      rw [ih h.tail htail (by omega) (by omega),
        show i + 1 + l.length = i + (l.length + 1) by omega]
      rfl

/-! ## Other texts -/

/-- The loop returns for every text and every console with its cursor on the screen. -/
theorem vgaWriteLoop_returns (data : Nat → UInt8) (len : Nat) (hs : ScreenOk s) :
    ∃ j t, vgaWriteLoop data len fuel i s = some (j, t) ∧ i ≤ j := by
  induction fuel generalizing i s with
  | zero => exact ⟨i, s, rfl, Nat.le_refl _⟩
  | succ fuel ih =>
    unfold vgaWriteLoop
    by_cases hgo : data i ≠ 0 ∧ i < len
    · rw [if_pos hgo]
      by_cases hesc : data i = 27
      · rw [if_pos hesc]
        obtain ⟨j, t, ht, hle⟩ := ih (i := i + 2) (hs.setColor (data (i + 1)))
        exact ⟨j, t, ht, by omega⟩
      · rw [if_neg hesc]
        obtain ⟨-, s', -, hs', hok, -⟩ := vgaPrintChar_spec hs (data i)
        obtain ⟨j, t, ht, hle⟩ := ih (i := i + 1) hok
        rw [hs', Option.bind_some]
        exact ⟨j, t, ht, by omega⟩
    · rw [if_neg hgo]
      exact ⟨i, s, rfl, Nat.le_refl _⟩

/-- **A text that ends with an escape byte**: the loop steps over the terminator. -/
theorem vgaWriteLoop_beyond (h : Text data i l) (he : ¬ Escaped l) (hs : ScreenOk s)
    (hfuel : l.length ≤ fuel) (hlen : i + l.length ≤ len) :
    ∃ j t, vgaWriteLoop data len fuel i s = some (j, t) ∧ i + l.length < j := by
  induction l using escape_induction generalizing fuel i s with
  | nil => exact absurd trivial he
  | last =>
    rw [List.length_singleton] at hfuel hlen ⊢
    cases fuel with
    | zero => exact absurd hfuel (Nat.not_succ_le_zero _)
    | succ fuel =>
      have hhead : data i = 27 := h.head
      unfold vgaWriteLoop
      -- the byte behind is the terminator, and the loop goes on at `i + 2`
      rw [if_pos ⟨by rw [hhead]; decide, by omega⟩, if_pos hhead]
      obtain ⟨j, t, ht, hle⟩ := @vgaWriteLoop_returns _ fuel (i + 2) data len
        (hs.setColor (data (i + 1)))
      exact ⟨j, t, ht, by omega⟩
  | esc b l ih =>
    simp only [List.length_cons] at hfuel hlen ⊢
    cases fuel with
    | zero => exact absurd hfuel (Nat.not_succ_le_zero _)
    | succ fuel =>
      have hhead : data i = 27 := h.head
      have hb : b ≠ 0 := h.nonzero b (List.mem_cons_of_mem _ List.mem_cons_self)
      unfold vgaWriteLoop
      rw [if_pos ⟨by rw [hhead]; decide, by omega⟩, if_pos hhead]
      obtain ⟨j, t, ht, hlt⟩ := ih h.tail.tail (fun htail => he ⟨hb, htail⟩)
        (hs.setColor (data (i + 1))) (show l.length ≤ fuel by omega) (by omega)
      exact ⟨j, t, ht, by omega⟩
  | char c l hc ih =>
    simp only [List.length_cons] at hfuel hlen ⊢
    cases fuel with
    | zero => exact absurd hfuel (Nat.not_succ_le_zero _)
    | succ fuel =>
      have hhead : data i = c := h.head
      have hzero : c ≠ 0 := h.nonzero c List.mem_cons_self
      unfold vgaWriteLoop
      rw [if_pos ⟨by rw [hhead]; exact hzero, by omega⟩, if_neg (by rw [hhead]; exact hc)]
      obtain ⟨-, s', -, hs', hok, -⟩ := vgaPrintChar_spec hs (data i)
      obtain ⟨j, t, ht, hlt⟩ := ih h.tail (fun htail => he ((escaped_cons_iff hc).mpr htail)) hok
        (show l.length ≤ fuel by omega) (by omega)
      rw [hs', Option.bind_some]
      exact ⟨j, t, ht, by omega⟩

/-! ## Agreement -/

/-- Both writers leave the same console for a text of `n` bytes, and read nothing behind its
    terminator. -/
structure WritersAgree (s : Console) (data : Nat → UInt8) (n len : Nat) : Prop where
  same : (printStr s data).map Prod.snd = (vgaWrite s data len).map Prod.snd
  print_read : ∀ i t, printStr s data = some (i, t) → i ≤ n
  write_read : ∀ i t, vgaWrite s data len = some (i, t) → i ≤ n

/-- The writers agree on a string that does not end behind an escape byte. -/
theorem writersAgree_of_escaped (s : Console) (h : Text data 0 l) (hlen : l.length ≤ len)
    (he : Escaped l) : WritersAgree s data l.length len := by
  have hroom := h.room
  have hprint : printStr s data = (vgaPrintStr s l).map fun t => (0 + l.length, t) :=
    printStrLoop_text h he (by omega)
  have hwrite : vgaWrite s data len = (vgaPrintStr s l).map fun t => (0 + l.length, t) :=
    vgaWriteLoop_text h he hlen (by omega)
  have hread : ∀ i t, (vgaPrintStr s l).map (fun t => (0 + l.length, t)) = some (i, t) →
      i ≤ l.length := by
    intro i t heq
    obtain ⟨t', -, hpair⟩ := Option.map_eq_some_iff.mp heq
    have hi : 0 + l.length = i := congrArg Prod.fst hpair
    omega
  constructor
  · rw [hprint, hwrite]
  · rw [hprint]
    exact hread
  · rw [hwrite]
    exact hread

/-- **The two writers** agree on every escaped text, in every console, and on no other text when
    the cursor is on the screen. -/
theorem writers_agree_iff (s : Console) (h : Text data 0 l) (hlen : l.length ≤ len) :
    (Escaped l → WritersAgree s data l.length len) ∧
      (ScreenOk s → (WritersAgree s data l.length len ↔ Escaped l)) := by
  refine ⟨writersAgree_of_escaped s h hlen, fun hs => ⟨fun hagree => ?_, ?_⟩⟩
  · by_contra he
    have hfits : 0 + l.length ≤ len := by omega
    obtain ⟨j, t, ht, hlt⟩ := vgaWriteLoop_beyond h he hs hlen hfits
    have := hagree.write_read j t ht
    omega
  · exact writersAgree_of_escaped s h hlen

end

/-- A console after `vga_clear`. -/
def clearConsole : Console := ⟨0, 0, 0x700, fun _ => 0, 0⟩

/-- An empty screen. -/
theorem clearConsole_ok : ScreenOk clearConsole :=
  ⟨by decide, by decide, by decide⟩

/-- `"\033\007A"` -/
def colorText : Nat → UInt8 := fun i => [27, 7, 65, 0].getD i 0

/-- A color in front of a letter. -/
theorem writers_agree_iff_color : WritersAgree clearConsole colorText 3 5 := by
  have htext : Text colorText 0 [27, 7, 65] := by
    refine ⟨fun k b hk => ?_, by simp, by simp⟩
    show [27, 7, 65, 0].getD (0 + k) 0 = b
    have hk' : [27, 7, 65, 0][k]? = some b := hk
    rw [Nat.zero_add, List.getD_eq_getElem?_getD, hk', Option.getD_some]
  exact (writers_agree_iff clearConsole htext (by decide)).1 ⟨by decide, trivial⟩

/-- `"\033"` with an `A` behind the terminator. -/
def escapeText : Nat → UInt8 := fun i => [27, 0, 65, 0].getD i 0

/-- `vga_print_str` reads the bytes behind the terminator of `"\033"` and prints them; `vga_write`
    with its length reads one of them and prints none. -/
theorem escapeText_beyond :
    ¬ WritersAgree clearConsole escapeText 1 1 ∧
      (printStr clearConsole escapeText).map (fun r => (r.1, r.2.xpos)) = some (3, 1) ∧
      (vgaWrite clearConsole escapeText 1).map (fun r => (r.1, r.2.xpos)) = some (2, 0) := by
  have hprint :
      (printStr clearConsole escapeText).map (fun r => (r.1, r.2.xpos)) = some (3, 1) := by
    decide +kernel
  refine ⟨fun h => ?_, hprint, by decide +kernel⟩
  obtain ⟨⟨i, t⟩, ht, hpair⟩ := Option.map_eq_some_iff.mp hprint
  have hle := h.print_read i t ht
  have hi : i = 3 := congrArg Prod.fst hpair
  omega

end Toutatis
