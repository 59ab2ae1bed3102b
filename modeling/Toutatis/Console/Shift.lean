import Toutatis.Console.Keyboard

/-!
# The shift keys

`keyboard.c` has one flag for two shift keys. Here the flag is compared with the keys themselves,
over any history of scancodes: a key is held when its last scancode was a press.

When one shift key is released while the other one is held, the flag is cleared, and the characters
that follow are taken from the first row of `keymap_us` although a shift key is held.

## Key results

- `shiftPressed_eq`: the flag is set by the last scancode of a shift key
- `lastShift_eq_held_iff`: when that says which keys are held
- `shift_tracked_iff`: the runs whose characters all have the right row
-/

namespace Toutatis

/-! ## Histories -/

/-- A shift key is pressed. -/
def ShiftPress (c : UInt8) : Prop := c.toNat = lshift ∨ c.toNat = rshift

/-- A shift key is released. -/
def ShiftRelease (c : UInt8) : Prop := c.toNat = lshift + 0x80 ∨ c.toNat = rshift + 0x80

instance (c : UInt8) : Decidable (ShiftPress c) := inferInstanceAs (Decidable (_ ∨ _))

instance (c : UInt8) : Decidable (ShiftRelease c) := inferInstanceAs (Decidable (_ ∨ _))

/-- The scancodes of a run. -/
def scancodes : List KbdEvent → List UInt8
  | [] => []
  | .irq scancode :: events => scancode :: scancodes events
  | .step :: events => scancodes events

/-- The key is held: its last scancode was a press. -/
def keyHeld (key : Nat) (codes : List UInt8) : Bool :=
  codes.foldl (fun held c =>
    if c.toNat = key then true
    else if c.toNat = key + 0x80 then false
    else held) false

/-- One of the shift keys is held. -/
def shiftHeld (codes : List UInt8) : Bool := keyHeld lshift codes || keyHeld rshift codes

/-- The last scancode of a shift key was a press. -/
def lastShift (codes : List UInt8) : Bool :=
  codes.foldl (fun last c =>
    if ShiftPress c then true
    else if ShiftRelease c then false
    else last) false

/-- Each key alternates press and release, behind the scancodes `before`. -/
def Alternates (before : List UInt8) : List UInt8 → Prop
  | [] => True
  | c :: codes =>
    (if c.toNat < 0x80 then keyHeld c.toNat before = false
      else keyHeld (c.toNat - 0x80) before = true) ∧ Alternates (before ++ [c]) codes

/-- The last scancode of a shift key released it, while the other one was held. -/
def OtherReleased (codes : List UInt8) : Prop :=
  ∃ before r after, codes = before ++ r :: after ∧ ShiftRelease r ∧
    shiftHeld (before ++ [r]) = true ∧ ∀ c ∈ after, ¬ ShiftPress c ∧ ¬ ShiftRelease c

section

variable {codes : List UInt8} {c : UInt8} {key : Nat}

/-- The last code decides about its own key. -/
theorem keyHeld_append : keyHeld key (codes ++ [c]) =
    if c.toNat = key then true else if c.toNat = key + 0x80 then false else keyHeld key codes := by
  unfold keyHeld
  rw [List.foldl_append]
  rfl

/-- The last code decides when it belongs to a shift key. -/
theorem lastShift_append : lastShift (codes ++ [c]) =
    if ShiftPress c then true else if ShiftRelease c then false else lastShift codes := by
  unfold lastShift
  rw [List.foldl_append]
  rfl

/-- A scancode of another key. -/
theorem shiftHeld_append_other (hpress : ¬ ShiftPress c) (hrelease : ¬ ShiftRelease c) :
    shiftHeld (codes ++ [c]) = shiftHeld codes := by
  unfold ShiftPress at hpress
  unfold ShiftRelease at hrelease
  unfold shiftHeld
  rw [keyHeld_append, keyHeld_append, if_neg (by tauto), if_neg (by tauto), if_neg (by tauto),
    if_neg (by tauto)]

/-- A shift key is held behind its press. -/
theorem shiftHeld_append_press (hpress : ShiftPress c) : shiftHeld (codes ++ [c]) = true := by
  unfold shiftHeld
  rw [keyHeld_append, keyHeld_append]
  cases hpress with
  | inl hleft => rw [if_pos hleft, Bool.true_or]
  | inr hright => rw [if_pos hright, Bool.or_true]

/-- A code is not both a press and a release. -/
theorem not_press_of_release (h : ShiftRelease c) : ¬ ShiftPress c := by
  unfold ShiftRelease ShiftPress lshift rshift at *
  omega

/-- Scancodes of other keys change nothing. -/
theorem shiftHeld_append_others {after : List UInt8}
    (h : ∀ c ∈ after, ¬ ShiftPress c ∧ ¬ ShiftRelease c) :
    shiftHeld (codes ++ after) = shiftHeld codes ∧
      lastShift (codes ++ after) = lastShift codes := by
  induction after using List.reverseRecOn with
  | nil => rw [List.append_nil]; exact ⟨rfl, rfl⟩
  | append_singleton after c ih =>
    have hc := h c (by simp)
    have hrest := ih fun d hd => h d (List.mem_append_left _ hd)
    rw [← List.append_assoc, shiftHeld_append_other hc.1 hc.2, lastShift_append, if_neg hc.1,
      if_neg hc.2]
    exact hrest

/-- After a press of a shift key, and no other scancode of one, that key is held. -/
theorem shiftHeld_of_lastShift (h : lastShift codes = true) : shiftHeld codes = true := by
  -- back from the last scancode to the last one of a shift key
  induction codes using List.reverseRecOn with
  | nil => exact absurd h (by decide)
  | append_singleton codes c ih =>
    by_cases hpress : ShiftPress c
    · exact shiftHeld_append_press hpress
    · rw [lastShift_append, if_neg hpress] at h
      by_cases hrelease : ShiftRelease c
      · rw [if_pos hrelease] at h
        exact absurd h (by decide)
      · rw [if_neg hrelease] at h
        rw [shiftHeld_append_other hpress hrelease]
        exact ih h

/-- A shift key is held after a release of the other one. -/
theorem otherReleased_of_held (hheld : shiftHeld codes = true) (hlast : lastShift codes = false) :
    OtherReleased codes := by
  induction codes using List.reverseRecOn with
  | nil => exact absurd hheld (by decide)
  | append_singleton codes c ih =>
    by_cases hpress : ShiftPress c
    · rw [lastShift_append, if_pos hpress] at hlast
      exact absurd hlast (by decide)
    · by_cases hrelease : ShiftRelease c
      · -- this is the release
        exact ⟨codes, c, [], rfl, hrelease, hheld, fun d hd => absurd hd List.not_mem_nil⟩
      · rw [shiftHeld_append_other hpress hrelease] at hheld
        rw [lastShift_append, if_neg hpress, if_neg hrelease] at hlast
        obtain ⟨before, r, after, hsplit, hr, hother, hafter⟩ := ih hheld hlast
        refine ⟨before, r, after ++ [c], by rw [hsplit]; simp, hr, hother, fun d hd => ?_⟩
        cases List.mem_append.mp hd with
        | inl hmem => exact hafter d hmem
        | inr hmem =>
          rw [List.mem_singleton.mp hmem]
          exact ⟨hpress, hrelease⟩

/-- One shift key is held although the other one has been released last. -/
theorem OtherReleased.held (h : OtherReleased codes) :
    shiftHeld codes = true ∧ lastShift codes = false := by
  obtain ⟨before, r, after, hsplit, hr, hother, hafter⟩ := h
  have happend : codes = before ++ [r] ++ after := by
    rw [hsplit, List.append_assoc]
    rfl
  have hsame := @shiftHeld_append_others (before ++ [r]) after hafter
  rw [happend, hsame.1, hsame.2, lastShift_append, if_neg (not_press_of_release hr), if_pos hr]
  exact ⟨hother, rfl⟩

/-- The last scancode of a shift key tells whether one is held, except after the release of one of
    two. -/
theorem lastShift_eq_held_iff : lastShift codes = shiftHeld codes ↔ ¬ OtherReleased codes := by
  constructor
  · intro heq hother
    rw [hother.held.1, hother.held.2] at heq
    exact absurd heq (by decide)
  · intro hnot
    cases hlast : lastShift codes with
    | true => rw [shiftHeld_of_lastShift hlast]
    | false =>
      cases hheld : shiftHeld codes with
      | true => exact absurd (otherReleased_of_held hheld hlast) hnot
      | false => rfl

end

/-! ## The flag -/

/-- The mask takes the release bit from a code. -/
theorem and_0x7f (n : Nat) (hn : n < 256) (hge : 0x80 ≤ n) : n &&& 0x7f = n - 0x80 := by
  have hmod := Nat.and_two_pow_sub_one_eq_mod n 7
  rw [show (2 : Nat) ^ 7 - 1 = 0x7f from rfl, show (2 : Nat) ^ 7 = 0x80 from rfl] at hmod
  omega

/-- The handler sets the flag with a press of a shift key, and clears it with a release. -/
theorem keyboardHandler_shift (kbd : Keyboard) (c : UInt8) :
    (keyboardHandler kbd c).1.shiftPressed =
      if ShiftPress c then true else if ShiftRelease c then false else kbd.shiftPressed := by
  have hlt := c.toNat_lt
  have hbit := and_0x80 c.toNat hlt
  unfold keyboardHandler
  by_cases hreleased : 0x80 ≤ c.toNat
  · -- the top bit is set
    have hcode : c.toNat &&& 0x7f = c.toNat - 0x80 := and_0x7f c.toNat hlt hreleased
    have hpress : ¬ ShiftPress c := by
      unfold ShiftPress lshift rshift
      omega
    simp only [if_pos (hbit.mpr hreleased), hcode, if_neg hpress]
    -- the release of a key is its code with the top bit set
    by_cases hshift : c.toNat - 0x80 = lshift ∨ c.toNat - 0x80 = rshift
    · have hrelease : ShiftRelease c := by
        unfold ShiftRelease lshift rshift at *
        omega
      rw [if_pos hshift, if_pos hrelease]
    · have hrelease : ¬ ShiftRelease c := by
        unfold ShiftRelease lshift rshift at *
        omega
      rw [if_neg hshift, if_neg hrelease]
  · have hrelease : ¬ ShiftRelease c := by
      unfold ShiftRelease lshift rshift
      omega
    have hbit' : ¬ (c.toNat &&& 0x80 ≠ 0) := fun hne => hreleased (hbit.mp hne)
    simp only [if_neg hbit', if_neg hrelease]
    by_cases hpress : ShiftPress c
    · have hshift : c.toNat = lshift ∨ c.toNat = rshift := hpress
      rw [if_pos hshift, if_pos hpress]
    · have hshift : ¬ (c.toNat = lshift ∨ c.toNat = rshift) := hpress
      rw [if_neg hshift, if_neg hpress]
      split <;> rfl

/-- Reading a character keeps the state of the shift keys. -/
theorem step_shift (s : KbdState) : s.step.kbd.shiftPressed = s.kbd.shiftPressed := by
  unfold KbdState.step
  cases s.getchar with
  | idle => rfl
  | waiting =>
    simp only
    split <;> rfl
  | ready => rfl
  | fetched c => rfl

/-- The codes of two runs follow each other. -/
theorem scancodes_append (events events' : List KbdEvent) :
    scancodes (events ++ events') = scancodes events ++ scancodes events' := by
  induction events with
  | nil => rfl
  | cons e events ih =>
    cases e with
    | irq c => exact congrArg (c :: ·) ih
    | step => exact ih

/-- **The flag** is the last scancode of a shift key, whatever the reader does. -/
theorem shiftPressed_eq (events : List KbdEvent) :
    (events.foldl KbdEvent.exec startKbd).kbd.shiftPressed = lastShift (scancodes events) := by
  induction events using List.reverseRecOn with
  | nil => rfl
  | append_singleton events e ih =>
    rw [List.foldl_append, List.foldl_cons, List.foldl_nil, scancodes_append]
    cases e with
    | irq c =>
      show (keyboardHandler _ c).1.shiftPressed = lastShift (scancodes events ++ [c])
      rw [keyboardHandler_shift, lastShift_append, ih]
    | step =>
      show (KbdState.step _).kbd.shiftPressed = lastShift (scancodes events ++ [])
      rw [step_shift, List.append_nil, ih]

/-! ## Characters -/

/-- Every character is from the row of the shift keys that are held at that moment. -/
def ShiftTracked (events : List KbdEvent) : Prop :=
  ∀ before code after, events = before ++ .irq code :: after →
    ∀ c, pressedChar (before.foldl KbdEvent.exec startKbd).kbd code = some c →
      c = keymapUs (shiftHeld (scancodes before)) code.toNat

/-- The key has a character of its own with shift. -/
def Shifts (code : UInt8) : Prop :=
  code.toNat < 0x80 ∧ code.toNat ≠ lshift ∧ code.toNat ≠ rshift ∧
    keymapUs true code.toNat ≠ keymapUs false code.toNat

/-- Which codes give a character. -/
theorem pressedChar_eq_some_iff {kbd : Keyboard} {code c : UInt8} :
    pressedChar kbd code = some c ↔
      (code.toNat < 0x80 ∧ code.toNat ≠ lshift ∧ code.toNat ≠ rshift) ∧
        c = keymapUs kbd.shiftPressed code.toNat := by
  unfold pressedChar
  by_cases hnone : code.toNat ≥ 0x80 ∨ code.toNat = lshift ∨ code.toNat = rshift
  · rw [if_pos hnone]
    constructor
    · intro h
      exact absurd h (by simp)
    · intro h
      obtain ⟨⟨hlt, hl, hr⟩, -⟩ := h
      omega
  · rw [if_neg hnone, Option.some.injEq]
    constructor
    · intro h
      exact ⟨by omega, h.symm⟩
    · intro h
      exact h.2.symm

/-- **Shift tracking.** In a run of scancodes and of steps of the reader every character is from the
    right row if and only if no key with two characters is pressed after the release of one shift
    key while the other one is held. -/
theorem shift_tracked_iff (events : List KbdEvent) :
    ShiftTracked events ↔ ∀ before code after, events = before ++ .irq code :: after →
      OtherReleased (scancodes before) → ¬ Shifts code := by
  constructor
  · -- the flag is clear and a key is held: the two rows must agree
    intro htracked before code after hsplit hother hshifts
    obtain ⟨hlt, hleft, hright, hne⟩ := hshifts
    have hchar := htracked before code after hsplit _
      (pressedChar_eq_some_iff.mpr ⟨⟨hlt, hleft, hright⟩, rfl⟩)
    rw [shiftPressed_eq, hother.held.1, hother.held.2] at hchar
    exact hne hchar.symm
  · intro hcond before code after hsplit c hc
    obtain ⟨⟨hlt, hleft, hright⟩, hchar⟩ := pressedChar_eq_some_iff.mp hc
    rw [shiftPressed_eq] at hchar
    by_cases hother : OtherReleased (scancodes before)
    · -- both rows have the same character
      have hsame : keymapUs true code.toNat = keymapUs false code.toNat := by
        by_contra hne
        exact hcond before code after hsplit hother ⟨hlt, hleft, hright, hne⟩
      rw [hchar, hother.held.1, hother.held.2, hsame]
    · rw [hchar, lastShift_eq_held_iff.mpr hother]

/-- Both shift keys are pressed, the left one is released, and the key of `a` is pressed. -/
def twoShifts : List KbdEvent := [.irq 0x2a, .irq 0x36, .irq 0xaa, .irq 0x1e]

/-- The failing run is one that a keyboard can send. -/
theorem twoShifts_alternates : Alternates [] (scancodes twoShifts) :=
  ⟨by decide, by decide, by decide, by decide, trivial⟩

/-- The character of `twoShifts` is an `a`, although the right shift key is held. -/
theorem twoShifts_untracked :
    Alternates [] (scancodes twoShifts) ∧ ¬ ShiftTracked twoShifts ∧
      shiftHeld (scancodes twoShifts) = true ∧
      (twoShifts.foldl KbdEvent.exec startKbd).accepted = [97] := by
  refine ⟨twoShifts_alternates, fun h => ?_, by decide, by decide⟩
  have hchar := h [.irq 0x2a, .irq 0x36, .irq 0xaa] 0x1e [] rfl 97 (by decide)
  exact absurd hchar (by decide)

end Toutatis
