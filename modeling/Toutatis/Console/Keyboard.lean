import Toutatis.Lib.Memory
import Toutatis.Lib.RingBuffer

/-!
# The keyboard buffer

A shallow embedding of `kernel/keyboard.c`. The interrupt handler puts characters into
`kbd_buffer` and `keyboard_getchar` takes them out; an interrupt may come between any two
steps of `keyboard_getchar`, and runs to its end before the next step. What the handler
prints on the screen is left out.

`accepted` and `returned` are not in the source: they list the characters that the handler
has stored and the ones that `keyboard_getchar` has returned.

## Key results

- `KbdOk.irq` / `KbdOk.step`: an interrupt, and a step of `keyboard_getchar`
- `keyboard_fifo`: what is returned is what was accepted, in order
-/

namespace Toutatis

open ByteMem RingBuffer

/-! ## Data -/

/-- `KBD_BUF_SIZE`. -/
def kbdBufSize : Nat := 32

/-- `LSHIFT` and `RSHIFT`. -/
def lshift : Nat := 0x2a

@[inherit_doc lshift]
def rshift : Nat := 0x36

/-- `keymap_us`; the entries that are not given are zeros. -/
def keymapUs (shift : Bool) (scancode : Nat) : UInt8 :=
  let row :=
    if shift then
      [0, 27] ++ charCodes "!@#$%^&*()_+" ++ [8, 9] ++ charCodes "QWERTYUIOP\x7b\x7d" ++ [10, 0] ++
        charCodes "ASDFGHJKL:\"~" ++ [0] ++ charCodes "\\ZXCVBNM<>?" ++ [0, 0, 0, 32]
    else
      [0, 27] ++ charCodes "1234567890-=" ++ [8, 9] ++ charCodes "qwertyuiop[]" ++ [10, 0] ++
        charCodes "asdfghjkl;'`" ++ [0] ++ charCodes "\\zxcvbnm,./" ++ [0, 0, 0, 32]
  row.getD scancode 0

/-- The variables of `keyboard.c`. -/
structure Keyboard where
  lastChar : UInt8
  shiftPressed : Bool
  kbdBuffer : Nat → UInt8
  readIdx : Nat
  writeIdx : Nat

/-- Where `keyboard_getchar` stands: not called, in its loop, behind it, and with a
    character read. -/
inductive Getchar where
  | idle
  | waiting
  | ready
  | fetched (c : UInt8)
deriving DecidableEq

/-- The keyboard and its reader. -/
structure KbdState where
  kbd : Keyboard
  getchar : Getchar
  accepted : List UInt8
  returned : List UInt8

/-! ## The handler -/

/-- The character of a key that has just been pressed. -/
def pressedChar (kbd : Keyboard) (scancode : UInt8) : Option UInt8 :=
  if scancode.toNat ≥ 0x80 ∨ scancode.toNat = lshift ∨ scancode.toNat = rshift then none
  else some (keymapUs kbd.shiftPressed scancode.toNat)

/-- `keyboard_handler`, and whether it stores a character. -/
def keyboardHandler (kbd : Keyboard) (scancode : UInt8) : Keyboard × Bool :=
  let code := scancode.toNat
  if code &&& 0x80 ≠ 0 then
    let code := code &&& 0x7f
    if code = lshift ∨ code = rshift then ({ kbd with shiftPressed := false }, false)
    else (kbd, false)
  else if code = lshift ∨ code = rshift then ({ kbd with shiftPressed := true }, false)
  else
    let kbd := { kbd with lastChar := keymapUs kbd.shiftPressed code }
    if (kbd.writeIdx + 1) % kbdBufSize ≠ kbd.readIdx then
      ({ kbd with
          kbdBuffer := Function.update kbd.kbdBuffer kbd.writeIdx kbd.lastChar
          writeIdx := (kbd.writeIdx + 1) % kbdBufSize }, true)
    else (kbd, false)

/-- An interrupt. -/
def KbdState.irq (s : KbdState) (scancode : UInt8) : KbdState :=
  let r := keyboardHandler s.kbd scancode
  { s with kbd := r.1, accepted := if r.2 then s.accepted ++ [r.1.lastChar] else s.accepted }

/-! ## The reader -/

/-- The next step of `keyboard_getchar`; a call when there is none under way. -/
def KbdState.step (s : KbdState) : KbdState :=
  match s.getchar with
  | .idle => { s with getchar := .waiting }
  | .waiting => if s.kbd.readIdx = s.kbd.writeIdx then s else { s with getchar := .ready }
  | .ready => { s with getchar := .fetched (s.kbd.kbdBuffer s.kbd.readIdx) }
  | .fetched c =>
    { s with
      kbd := { s.kbd with readIdx := (s.kbd.readIdx + 1) % kbdBufSize }
      getchar := .idle
      returned := s.returned ++ [c] }

/-- What happens next: an interrupt or a step of the reader. -/
inductive KbdEvent where
  | irq (scancode : UInt8)
  | step

/-- One event. -/
def KbdEvent.exec (s : KbdState) : KbdEvent → KbdState
  | .irq scancode => s.irq scancode
  | .step => s.step

/-- The start: the buffer is not used yet. -/
def startKbd : KbdState where
  kbd := ⟨0, false, fun _ => 0, 0, 0⟩
  getchar := .idle
  accepted := []
  returned := []

/-! ## The invariant -/

/-- The buffer holds the queue `q` of the characters that are accepted and not returned, and
    the reader has left its loop only with one to take. -/
structure KbdOk (s : KbdState) (q : List UInt8) : Prop where
  queue : Queue kbdBufSize s.kbd.kbdBuffer s.kbd.readIdx s.kbd.writeIdx q
  accepted : s.accepted = s.returned ++ q
  ready : s.getchar = .ready → q ≠ []
  fetched : ∀ c, s.getchar = .fetched c → q.head? = some c

section

variable {s : KbdState} {q : List UInt8}

theorem and_0x80 (n : Nat) (hn : n < 256) : n &&& 0x80 ≠ 0 ↔ 0x80 ≤ n := by
  rw [show (0x80 : Nat) = 2 ^ 7 from rfl, Nat.and_two_pow, Nat.testBit_eq_decide_div_mod_eq]
  by_cases h : n / 2 ^ 7 % 2 = 1
  · simp only [h, decide_true, Bool.toNat_true]
    omega
  · simp only [h, decide_false, Bool.toNat_false]
    omega

/-- All that the handler can do. -/
theorem keyboardHandler_cases (kbd : Keyboard) (scancode : UInt8) :
    (pressedChar kbd scancode = none ∧ ∃ shift,
      keyboardHandler kbd scancode = ({ kbd with shiftPressed := shift }, false)) ∨
    ∃ c, pressedChar kbd scancode = some c ∧
      (((kbd.writeIdx + 1) % kbdBufSize ≠ kbd.readIdx ∧
        keyboardHandler kbd scancode =
          ({ kbd with
              lastChar := c
              kbdBuffer := Function.update kbd.kbdBuffer kbd.writeIdx c
              writeIdx := (kbd.writeIdx + 1) % kbdBufSize }, true)) ∨
        ((kbd.writeIdx + 1) % kbdBufSize = kbd.readIdx ∧
          keyboardHandler kbd scancode = ({ kbd with lastChar := c }, false))) := by
  have hbit := and_0x80 scancode.toNat scancode.toNat_lt
  by_cases hreleased : 0x80 ≤ scancode.toNat
  · refine Or.inl ⟨if_pos (Or.inl hreleased), ?_⟩
    rw [keyboardHandler]
    simp only [if_pos (hbit.mpr hreleased)]
    split
    · exact ⟨false, rfl⟩
    · exact ⟨kbd.shiftPressed, rfl⟩
  · have hbit' : ¬ (scancode.toNat &&& 0x80 ≠ 0) := fun hne => hreleased (hbit.mp hne)
    by_cases hshift : scancode.toNat = lshift ∨ scancode.toNat = rshift
    · -- a shift key has no character
      refine Or.inl ⟨if_pos (Or.inr hshift), true, ?_⟩
      rw [keyboardHandler]
      simp only [if_neg hbit', if_pos hshift]
    · refine Or.inr ⟨keymapUs kbd.shiftPressed scancode.toNat, if_neg ?_, ?_⟩
      · rintro (hge | hs)
        · exact hreleased hge
        · exact hshift hs
      · rw [keyboardHandler]
        simp only [if_neg hbit', if_neg hshift]
        by_cases hfull : (kbd.writeIdx + 1) % kbdBufSize = kbd.readIdx
        · exact Or.inr ⟨hfull, if_neg (not_not_intro hfull)⟩
        · exact Or.inl ⟨hfull, if_pos hfull⟩

/-- **An interrupt.** A character is stored behind the queue, or lost when the queue has
    `KBD_BUF_SIZE - 1` characters. -/
theorem KbdOk.irq (h : KbdOk s q) (scancode : UInt8) :
    (pressedChar s.kbd scancode = none ∧ (s.irq scancode).accepted = s.accepted ∧
      KbdOk (s.irq scancode) q) ∨
    ∃ c, pressedChar s.kbd scancode = some c ∧
      ((q.length + 1 ≠ kbdBufSize ∧ (s.irq scancode).accepted = s.accepted ++ [c] ∧
          KbdOk (s.irq scancode) (q ++ [c])) ∨
        (q.length + 1 = kbdBufSize ∧ (s.irq scancode).accepted = s.accepted ∧
          KbdOk (s.irq scancode) q)) := by
  rcases keyboardHandler_cases s.kbd scancode with ⟨hnone, shift, heq⟩ | ⟨c, hc, hcase⟩
  · refine Or.inl ⟨hnone, ?_, ?_⟩
    · simp only [KbdState.irq, heq, Bool.false_eq_true, if_false]
    · simp only [KbdState.irq, heq, Bool.false_eq_true, if_false]
      exact ⟨h.queue, h.accepted, h.ready, h.fetched⟩
  · refine Or.inr ⟨c, hc, ?_⟩
    rcases hcase with ⟨hroom, heq⟩ | ⟨hfull, heq⟩
    · refine Or.inl ⟨fun hfull => hroom (h.queue.full_iff.mpr hfull), ?_, ?_⟩
      · simp only [KbdState.irq, heq, if_true]
      · simp only [KbdState.irq, heq, if_true]
        refine ⟨h.queue.push hroom c, ?_, ?_, fun d hd => ?_⟩
        · rw [h.accepted, List.append_assoc]
        · exact fun _ => List.append_ne_nil_of_right_ne_nil _ (List.cons_ne_nil _ _)
        · -- the first character stays the first
          rw [List.head?_append, h.fetched d hd]
          rfl
    · refine Or.inr ⟨h.queue.full_iff.mp hfull, ?_, ?_⟩
      · simp only [KbdState.irq, heq, Bool.false_eq_true, if_false]
      · simp only [KbdState.irq, heq, Bool.false_eq_true, if_false]
        exact ⟨h.queue, h.accepted, h.ready, h.fetched⟩

/-- **A step of `keyboard_getchar`.** -/
theorem KbdOk.step (h : KbdOk s q) : ∃ q', KbdOk s.step q' ∧ s.step.accepted = s.accepted := by
  cases hpc : s.getchar with
  | idle =>
    refine ⟨q, ?_, ?_⟩ <;> simp only [KbdState.step, hpc]
    exact ⟨h.queue, h.accepted, by simp, by simp⟩
  | waiting =>
    by_cases heq : s.kbd.readIdx = s.kbd.writeIdx
    · refine ⟨q, ?_, ?_⟩ <;> simp only [KbdState.step, hpc, if_pos heq]
      exact h
    · refine ⟨q, ?_, ?_⟩ <;> simp only [KbdState.step, hpc, if_neg heq]
      exact ⟨h.queue, h.accepted, fun _ hnil => heq (h.queue.empty_iff.mpr hnil), by simp⟩
  -- the byte is read here, and read_idx moves on in the next step
  | ready =>
    refine ⟨q, ?_, ?_⟩ <;> simp only [KbdState.step, hpc]
    refine ⟨h.queue, h.accepted, by simp, fun c hc => ?_⟩
    obtain ⟨x, rest, rfl⟩ := List.exists_cons_of_ne_nil (h.ready hpc)
    rw [List.head?_cons, ← h.queue.pop.1]
    simpa using hc
  | fetched c =>
    have hhead := h.fetched c hpc
    obtain ⟨x, rest, rfl⟩ : ∃ x rest, q = x :: rest :=
      List.exists_cons_of_ne_nil (by rintro rfl; simp at hhead)
    obtain rfl : x = c := by simpa using hhead
    refine ⟨rest, ?_, ?_⟩ <;> simp only [KbdState.step, hpc]
    refine ⟨h.queue.pop.2, ?_, by simp, by simp⟩
    rw [h.accepted, List.append_assoc]
    rfl

end

/-- Every run keeps the invariant. -/
theorem exists_kbdOk (events : List KbdEvent) :
    ∃ q, KbdOk (events.foldl KbdEvent.exec startKbd) q := by
  have hstart : KbdOk startKbd [] :=
    ⟨queue_nil _ (by decide), rfl, by simp [startKbd], by simp [startKbd]⟩
  induction events using List.reverseRecOn with
  | nil => exact ⟨[], hstart⟩
  | append_singleton events e ih =>
    obtain ⟨q, hq⟩ := ih
    rw [List.foldl_append, List.foldl_cons, List.foldl_nil]
    cases e with
    | irq scancode =>
      rcases hq.irq scancode with ⟨-, -, h⟩ | ⟨c, -, ⟨-, -, h⟩ | ⟨-, -, h⟩⟩
      · exact ⟨q, h⟩
      · exact ⟨q ++ [c], h⟩
      · exact ⟨q, h⟩
    | step =>
      obtain ⟨q', hq', -⟩ := hq.step
      exact ⟨q', hq'⟩

/-- **The keyboard buffer is a queue.** After every run of interrupts and steps of
    `keyboard_getchar`: the characters returned are the first of those accepted, in their
    order, and the others lie in the buffer; the indices are in range; and the next interrupt
    stores the character of its key, if it has one, unless `KBD_BUF_SIZE - 1` characters are
    accepted and not returned. -/
theorem keyboard_fifo (events : List KbdEvent) :
    let s := events.foldl KbdEvent.exec startKbd
    (∃ q, s.accepted = s.returned ++ q ∧
      Queue kbdBufSize s.kbd.kbdBuffer s.kbd.readIdx s.kbd.writeIdx q) ∧
    s.kbd.readIdx < kbdBufSize ∧ s.kbd.writeIdx < kbdBufSize ∧
    ∀ scancode, (s.irq scancode).accepted =
      if s.accepted.length - s.returned.length = kbdBufSize - 1 then s.accepted
      else s.accepted ++ (pressedChar s.kbd scancode).toList := by
  intro s
  obtain ⟨q, hq⟩ := exists_kbdOk events
  change KbdOk s q at hq
  refine ⟨⟨q, hq.accepted, hq.queue⟩, hq.queue.read_lt, hq.queue.write_lt, fun scancode => ?_⟩
  -- what is accepted and not returned is the queue
  have hunread : s.accepted.length - s.returned.length = q.length := by
    rw [hq.accepted, List.length_append, Nat.add_sub_cancel_left]
  have hfull : q.length = kbdBufSize - 1 ↔ q.length + 1 = kbdBufSize := by
    rw [kbdBufSize]
    omega
  rw [hunread]
  rcases hq.irq scancode with ⟨hnone, hacc, -⟩ | ⟨c, hc, ⟨hroom, hacc, -⟩ | ⟨hlen, hacc, -⟩⟩
  · rw [hacc, hnone, Option.toList_none, List.append_nil, ite_self]
  · rw [hacc, hc, if_neg (mt hfull.mp hroom), Option.toList_some]
  · rw [hacc, if_pos (hfull.mpr hlen)]

end Toutatis
