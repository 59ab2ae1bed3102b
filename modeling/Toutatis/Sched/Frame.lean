import Toutatis.Sched.Thread

/-!
# The frame of an interrupt

The three descriptions of one frame: the words that the processor and the stub of
`kernel/interrupts.s` push when an interrupt arrives, the pops and the `iretd` at its end,
and the frame that `create_thread` builds for a thread that has not run yet. The order of
the words is that of `registers_t`.

## Key results

- `pushAll_spec`: the words that a sequence of pushes leaves, and what it leaves alone
- `saveFrame_spec` / `FrameAt.restoreFrame`: what is pushed is what is popped
- `buildStack_spec`: the first frame of a thread
-/

namespace Toutatis

open ByteMem

/-! ## Pushes -/

/-- `n` words from address `a` on. -/
def loadWords (m : Mem) (a n : Nat) : List Nat :=
  (List.range n).map fun i => load32 m (a + 4 * i)

/-- Words depend on their bytes only. -/
theorem loadWords_congr {m m' : Mem} {a n : Nat} (h : ∀ x, a ≤ x → x < a + 4 * n → m' x = m x) :
    loadWords m' a n = loadWords m a n := by
  refine List.map_congr_left fun i hi => load32_congr fun x h1 h2 => ?_
  have := List.mem_range.mp hi
  exact h x (by omega) (by omega)

/-- Words pushed from the stack pointer `p` on, which may be the end of memory. -/
theorem pushAll_spec (m : Mem) {p : Nat} (xs : List Nat) (hroom : 4 * xs.length ≤ p)
    (hp : p ≤ 2 ^ 32) :
    (pushAll (m, p % 2 ^ 32) xs).2 = (p - 4 * xs.length) % 2 ^ 32 ∧
    loadWords (pushAll (m, p % 2 ^ 32) xs).1 (p - 4 * xs.length) xs.length =
      (xs.map (· % 2 ^ 32)).reverse ∧
    ∀ x, x < p - 4 * xs.length ∨ p ≤ x → (pushAll (m, p % 2 ^ 32) xs).1 x = m x := by
  induction xs generalizing m p with
  | nil => exact ⟨rfl, rfl, fun _ _ => rfl⟩
  | cons w xs ih =>
    rw [List.length_cons] at hroom
    have hsub : sub32 (p % 2 ^ 32) 4 = p - 4 := by
      simp only [sub32]
      omega
    have hmod : (p - 4) % 2 ^ 32 = p - 4 := Nat.mod_eq_of_lt (by omega)
    have hstep : pushAll (m, p % 2 ^ 32) (w :: xs) =
        pushAll (store32 m (p - 4) w, (p - 4) % 2 ^ 32) xs := by
      rw [pushAll, List.foldl_cons, push, hsub, hmod]
      rfl
    obtain ⟨hptr, hwords, hoff⟩ := ih (p := p - 4) (store32 m (p - 4) w) (by omega) (by omega)
    have hlen : p - 4 - 4 * xs.length = p - 4 * (xs.length + 1) := by omega
    rw [hlen] at hptr hwords hoff
    rw [hstep, List.length_cons]
    refine ⟨hptr, ?_, fun x hx => ?_⟩
    · -- the word pushed first lies on top of the others
      have htop : p - 4 * (xs.length + 1) + 4 * xs.length = p - 4 := by omega
      rw [List.map_cons, List.reverse_cons, ← hwords, loadWords, List.range_succ, List.map_append,
        List.map_singleton, htop]
      refine congrArg₂ _ rfl (congrArg (fun v => [v]) ?_)
      have hkeep : load32 (pushAll (store32 m (p - 4) w, (p - 4) % 2 ^ 32) xs).1 (p - 4) =
          load32 (store32 m (p - 4) w) (p - 4) :=
        load32_congr fun x h1 _ => hoff x (Or.inr (by omega))
      rw [hkeep, load32_store32_self]
    · rw [hoff x (by omega)]
      exact store32_apply_of_disjoint m w (by omega)

/-- Words pushed in two parts. -/
theorem pushAll_append (st : Mem × Nat) (xs ys : List Nat) :
    pushAll st (xs ++ ys) = pushAll (pushAll st xs) ys :=
  List.foldl_append

/-- A word of those that have been pushed, counted from the last one. -/
theorem load32_pushAll (m : Mem) {p : Nat} (xs : List Nat) (hroom : 4 * xs.length ≤ p)
    (hp : p ≤ 2 ^ 32) {i w : Nat} (hi : (xs.map (· % 2 ^ 32)).reverse[i]? = some w) :
    load32 (pushAll (m, p % 2 ^ 32) xs).1 (p - 4 * xs.length + 4 * i) = w := by
  rw [← (pushAll_spec m xs hroom hp).2.1, loadWords, List.getElem?_map] at hi
  obtain ⟨j, hj, rfl⟩ := Option.map_eq_some_iff.mp hi
  obtain ⟨hlt, rfl⟩ := List.getElem?_eq_some_iff.mp hj
  rw [List.getElem_range]

/-! ## The processor -/

/-- The registers. -/
@[ext]
structure Cpu where
  eax : BitVec 32
  ebx : BitVec 32
  ecx : BitVec 32
  edx : BitVec 32
  esi : BitVec 32
  edi : BitVec 32
  ebp : BitVec 32
  ds : BitVec 16
  es : BitVec 16
  fs : BitVec 16
  gs : BitVec 16
  eip : BitVec 32
  cs : BitVec 16
  eflags : BitVec 32
  esp : BitVec 32
  ss : BitVec 16

/-- The processor is in user mode, ring 3. -/
def Cpu.user (c : Cpu) : Bool := c.cs &&& 3#16 = 3#16

/-- `0x10`, the kernel's data segment, which is also `ss0`. -/
def kernelData : BitVec 16 := 0x10#16

/-- The words pushed when the timer interrupts: by the processor, `ss` and `esp` only when
    it comes from user mode; then by the stub. -/
def Cpu.pushes (c : Cpu) : List Nat :=
  (if c.user then [c.ss.toNat, c.esp.toNat] else []) ++
    [c.eflags.toNat, c.cs.toNat, c.eip.toNat] ++
    -- error code and interrupt number
    [0, 0] ++
    [c.eax.toNat, c.ebx.toNat, c.ecx.toNat, c.edx.toNat, c.esi.toNat, c.edi.toNat, c.ebp.toNat,
      c.ds.toNat, c.es.toNat, c.fs.toNat, c.gs.toNat]

/-- Memory and stack pointer after the pushes. An interrupt of user mode starts at `esp0`. -/
def saveFrame (c : Cpu) (esp0 : Nat) (m : Mem) : Mem × Nat :=
  pushAll (m, if c.user then esp0 else c.esp.toNat) c.pushes

/-- The end of the stub: `regs` comes back from the handler, `sub eax, 4`, `mov esp, eax`
    and `pop eax` make it the stack pointer, the registers are popped, the error code and
    the interrupt number are skipped. `iretd` pops `eip`, `cs` and `eflags`, and `esp` and
    `ss` when it returns to user mode. -/
def restoreFrame (m : Mem) (regs : Nat) : Cpu :=
  let sp := add32 (sub32 regs 4) 4
  let word (i : Nat) : BitVec 32 := BitVec.ofNat 32 (load32 m (add32 sp (4 * i)))
  let selector (i : Nat) : BitVec 16 := BitVec.ofNat 16 (load32 m (add32 sp (4 * i)))
  let toUser := selector 14 &&& 3#16 = 3#16
  { gs := selector 0
    fs := selector 1
    es := selector 2
    ds := selector 3
    ebp := word 4
    edi := word 5
    esi := word 6
    edx := word 7
    ecx := word 8
    ebx := word 9
    eax := word 10
    eip := word 13
    cs := selector 14
    eflags := word 15
    esp := if toUser then word 16 else BitVec.ofNat 32 (add32 sp 64)
    ss := if toUser then selector 17 else kernelData }

/-- A frame of user mode has two words more. -/
theorem Cpu.length_pushes (c : Cpu) : c.pushes.length = if c.user then 18 else 16 := by
  rw [Cpu.pushes]
  split <;> rfl

/-- The words of a frame at `a`, in the order of `registers_t`; the last two belong to
    frames of user mode only. -/
structure FrameAt (m : Mem) (a : Nat) (c : Cpu) : Prop where
  gs : load32 m a = c.gs.toNat
  fs : load32 m (a + 4) = c.fs.toNat
  es : load32 m (a + 8) = c.es.toNat
  ds : load32 m (a + 12) = c.ds.toNat
  ebp : load32 m (a + 16) = c.ebp.toNat
  edi : load32 m (a + 20) = c.edi.toNat
  esi : load32 m (a + 24) = c.esi.toNat
  edx : load32 m (a + 28) = c.edx.toNat
  ecx : load32 m (a + 32) = c.ecx.toNat
  ebx : load32 m (a + 36) = c.ebx.toNat
  eax : load32 m (a + 40) = c.eax.toNat
  eip : load32 m (a + 52) = c.eip.toNat
  cs : load32 m (a + 56) = c.cs.toNat
  eflags : load32 m (a + 60) = c.eflags.toNat
  esp : if c.user then load32 m (a + 64) = c.esp.toNat else c.esp.toNat = (a + 64) % 2 ^ 32
  ss : if c.user then load32 m (a + 68) = c.ss.toNat else c.ss = kernelData

/-- The number of bytes of the frame. -/
def Cpu.frameLen (c : Cpu) : Nat := if c.user then 72 else 64

/-- A frame is popped as it is. -/
theorem FrameAt.restoreFrame {m : Mem} {a : Nat} {c : Cpu} (h : FrameAt m a c)
    (ha : a + c.frameLen ≤ 2 ^ 32) : restoreFrame m a = c := by
  have hlen : 64 ≤ c.frameLen := by
    rw [Cpu.frameLen]
    split <;> decide
  have hsp : add32 (sub32 a 4) 4 = a := by
    simp only [add32, sub32]
    omega
  have hword : ∀ i (x : BitVec 32), a + 4 * i < 2 ^ 32 → load32 m (a + 4 * i) = x.toNat →
      BitVec.ofNat 32 (load32 m (add32 a (4 * i))) = x := by
    intro i x hi hx
    rw [add32_of_lt hi, hx, BitVec.ofNat_toNat, BitVec.setWidth_eq]
  have hselector : ∀ i (x : BitVec 16), a + 4 * i < 2 ^ 32 → load32 m (a + 4 * i) = x.toNat →
      BitVec.ofNat 16 (load32 m (add32 a (4 * i))) = x := by
    intro i x hi hx
    rw [add32_of_lt hi, hx, BitVec.ofNat_toNat, BitVec.setWidth_eq]
  have hcs := hselector 14 c.cs (by omega) h.cs
  have hesp := h.esp
  have hss := h.ss
  rw [Toutatis.restoreFrame]
  simp only [hsp, hcs, hselector 0 c.gs (by omega) h.gs, hselector 1 c.fs (by omega) h.fs,
    hselector 2 c.es (by omega) h.es, hselector 3 c.ds (by omega) h.ds,
    hword 4 c.ebp (by omega) h.ebp, hword 5 c.edi (by omega) h.edi,
    hword 6 c.esi (by omega) h.esi, hword 7 c.edx (by omega) h.edx,
    hword 8 c.ecx (by omega) h.ecx, hword 9 c.ebx (by omega) h.ebx,
    hword 10 c.eax (by omega) h.eax, hword 13 c.eip (by omega) h.eip,
    hword 15 c.eflags (by omega) h.eflags]
  by_cases huser : c.cs &&& 3#16 = 3#16
  · -- `iret` to user mode pops the stack pointer as well
    have hu : c.user = true := by simpa [Cpu.user] using huser
    rw [Cpu.frameLen, if_pos hu] at ha
    rw [if_pos hu] at hesp hss
    simp only [huser, if_true, hword 16 c.esp (by omega) hesp, hselector 17 c.ss (by omega) hss]
  · have hu : c.user = false := by simpa [Cpu.user] using huser
    rw [if_neg (by rw [hu]; decide)] at hesp hss
    have hsp64 : BitVec.ofNat 32 (add32 a 64) = c.esp := by
      apply BitVec.eq_of_toNat_eq
      rw [BitVec.toNat_ofNat, hesp, add32, Nat.mod_mod]
    simp only [huser, if_false, hsp64, ← hss]

/-- A frame depends on its own bytes only. -/
theorem FrameAt.congr {m m' : Mem} {a : Nat} {c : Cpu} (h : FrameAt m a c)
    (hm : ∀ x, a ≤ x → x < a + c.frameLen → m' x = m x) : FrameAt m' a c := by
  have hlen : 64 ≤ c.frameLen := by
    rw [Cpu.frameLen]
    split <;> decide
  have hload : ∀ i, i + 4 ≤ c.frameLen → load32 m' (a + i) = load32 m (a + i) := fun i hi =>
    load32_congr fun x h1 h2 => hm x (by omega) (by omega)
  -- one word for each field; esp and ss are there in the frames of user mode only
  refine ⟨?_, ?_, ?_, ?_, ?_, ?_, ?_, ?_, ?_, ?_, ?_, ?_, ?_, ?_, ?_, ?_⟩
  · exact (hload 0 (by omega)).trans h.gs
  · rw [hload 4 (by omega)]; exact h.fs
  · rw [hload 8 (by omega)]; exact h.es
  · rw [hload 12 (by omega)]; exact h.ds
  · rw [hload 16 (by omega)]; exact h.ebp
  · rw [hload 20 (by omega)]; exact h.edi
  · rw [hload 24 (by omega)]; exact h.esi
  · rw [hload 28 (by omega)]; exact h.edx
  · rw [hload 32 (by omega)]; exact h.ecx
  · rw [hload 36 (by omega)]; exact h.ebx
  · rw [hload 40 (by omega)]; exact h.eax
  · rw [hload 52 (by omega)]; exact h.eip
  · rw [hload 56 (by omega)]; exact h.cs
  · rw [hload 60 (by omega)]; exact h.eflags
  · have hesp := h.esp
    split at hesp
    · rw [if_pos ‹_›, hload 64 (by rw [Cpu.frameLen, if_pos ‹_›]; decide)]
      exact hesp
    · rw [if_neg ‹_›]
      exact hesp
  · have hss := h.ss
    split at hss
    · rw [if_pos ‹_›, hload 68 (by rw [Cpu.frameLen, if_pos ‹_›])]
      exact hss
    · rw [if_neg ‹_›]
      exact hss

/-- **The frame of an interrupt**: the pushes write the frame of the registers below the
    stack pointer `p`, and nothing else. -/
theorem saveFrame_spec (c : Cpu) {esp0 p : Nat} (m : Mem)
    (hp : p % 2 ^ 32 = if c.user then esp0 else c.esp.toNat) (hroom : c.frameLen ≤ p)
    (hle : p ≤ 2 ^ 32) (hss : c.user = false → c.ss = kernelData) :
    (saveFrame c esp0 m).2 = p - c.frameLen ∧
    FrameAt (saveFrame c esp0 m).1 (p - c.frameLen) c ∧
    ∀ x, x < p - c.frameLen ∨ p ≤ x → (saveFrame c esp0 m).1 x = m x := by
  have hlen : 4 * c.pushes.length = c.frameLen := by
    rw [Cpu.length_pushes, Cpu.frameLen]
    split <;> rfl
  have hpos : 64 ≤ c.frameLen := by
    rw [Cpu.frameLen]
    split <;> decide
  obtain ⟨hptr, -, hoff⟩ := pushAll_spec m c.pushes (hlen ▸ hroom) hle
  rw [hlen] at hptr hoff
  rw [saveFrame, ← hp]
  refine ⟨hptr.trans (Nat.mod_eq_of_lt (by omega)), ?_, hoff⟩
  -- the words in ascending order are the pushes in reverse
  have hget : ∀ i w, (c.pushes.map (· % 2 ^ 32)).reverse[i]? = some w →
      load32 (pushAll (m, p % 2 ^ 32) c.pushes).1 (p - c.frameLen + 4 * i) = w := fun i w hi => by
    rw [← hlen]
    exact load32_pushAll m c.pushes (hlen ▸ hroom) hle hi
  have hlt32 : ∀ x : BitVec 32, x.toNat < 4294967296 := fun x => x.isLt
  have hlt16 : ∀ x : BitVec 16, x.toNat < 4294967296 := fun x => by have := x.isLt; omega
  cases huser : c.user with
  | true =>
    have hrev : (c.pushes.map (· % 2 ^ 32)).reverse =
        [c.gs.toNat, c.fs.toNat, c.es.toNat, c.ds.toNat, c.ebp.toNat, c.edi.toNat, c.esi.toNat,
          c.edx.toNat, c.ecx.toNat, c.ebx.toNat, c.eax.toNat, 0, 0, c.eip.toNat, c.cs.toNat,
          c.eflags.toNat, c.esp.toNat, c.ss.toNat] := by
      simp [Cpu.pushes, huser, Nat.mod_eq_of_lt, hlt32, hlt16]
    rw [hrev] at hget
    exact ⟨hget 0 _ rfl, hget 1 _ rfl, hget 2 _ rfl, hget 3 _ rfl, hget 4 _ rfl, hget 5 _ rfl,
      hget 6 _ rfl, hget 7 _ rfl, hget 8 _ rfl, hget 9 _ rfl, hget 10 _ rfl, hget 13 _ rfl,
      hget 14 _ rfl, hget 15 _ rfl, by rw [if_pos huser]; exact hget 16 _ rfl,
      by rw [if_pos huser]; exact hget 17 _ rfl⟩
  | false =>
    have hrev : (c.pushes.map (· % 2 ^ 32)).reverse =
        [c.gs.toNat, c.fs.toNat, c.es.toNat, c.ds.toNat, c.ebp.toNat, c.edi.toNat, c.esi.toNat,
          c.edx.toNat, c.ecx.toNat, c.ebx.toNat, c.eax.toNat, 0, 0, c.eip.toNat, c.cs.toNat,
          c.eflags.toNat] := by
      simp [Cpu.pushes, huser, Nat.mod_eq_of_lt, hlt32, hlt16]
    rw [hrev] at hget
    have hesp : c.esp.toNat = (p - c.frameLen + 64) % 2 ^ 32 := by
      rw [Cpu.frameLen, huser] at hroom ⊢
      rw [huser] at hp
      simp only [Bool.false_eq_true, if_false] at hroom hp ⊢
      rw [← hp, Nat.sub_add_cancel hroom]
    exact ⟨hget 0 _ rfl, hget 1 _ rfl, hget 2 _ rfl, hget 3 _ rfl, hget 4 _ rfl, hget 5 _ rfl,
      hget 6 _ rfl, hget 7 _ rfl, hget 8 _ rfl, hget 9 _ rfl, hget 10 _ rfl, hget 13 _ rfl,
      hget 14 _ rfl, hget 15 _ rfl, by rw [if_neg (by rw [huser]; decide)]; exact hesp,
      by rw [if_neg (by rw [huser]; decide)]; exact hss huser⟩

/-! ## The first frame -/

/-- The registers with which a new thread starts. -/
def initialCpu (a : ThreadArgs) (kstack ustack : Nat) : Cpu :=
  let data : BitVec 16 := if a.user then 0x23#16 else 0x10#16
  { eax := 0
    ebx := 0
    ecx := 0
    edx := 0
    esi := 0
    edi := 0
    ebp := 0
    ds := data
    es := data
    fs := data
    gs := data
    eip := BitVec.ofNat 32 a.entry
    cs := if a.user then 0x1b#16 else 0x08#16
    eflags := if a.user then 0x3202#32 else 0x0202#32
    esp := BitVec.ofNat 32 ((if a.user then ustack else kstack) + stackSize - 8)
    ss := data }

/-- A new thread starts in the mode it is created for. -/
theorem initialCpu_user (a : ThreadArgs) (kstack ustack : Nat) :
    (initialCpu a kstack ustack).user = a.user := by
  cases h : a.user <;> simp [initialCpu, Cpu.user, h]

/-- The stack pointer of a new thread: 18 words below the top of its kernel stack. -/
theorem buildStack_snd (m : Mem) (a : ThreadArgs) {kstack : Nat} (ustack exitAddr : Nat)
    (hk : kstack + stackSize ≤ 2 ^ 32) :
    (buildStack m kstack ustack a.entry a.args exitAddr a.user a.vm86).2 =
      kstack + stackSize - 72 := by
  rw [stackSize] at hk ⊢
  have hptr : ∀ (m : Mem) (xs : List Nat), xs.length = 18 →
      (pushAll (m, (kstack + 0x2000) % 2 ^ 32) xs).2 = kstack + 0x2000 - 72 := by
    intro m xs hlen
    have := (pushAll_spec m xs (p := kstack + 0x2000) (by omega) hk).1
    rw [this, hlen]
    exact Nat.mod_eq_of_lt (by omega)
  rw [buildStack]
  simp only [add32, stackSize]
  split
  · rw [← pushAll_append]
    exact hptr _ _ rfl
  · rw [← pushAll_append]
    exact hptr _ _ rfl

/-- **The first frame** of a thread: it has the layout of every other frame, with the
    argument on the stack that the thread starts on, and for kernel threads the address of
    `thread_exit` below it. -/
theorem buildStack_spec (m : Mem) (a : ThreadArgs) (hvm : a.vm86 = false) {kstack ustack : Nat}
    (exitAddr : Nat) (hk : kstack + stackSize ≤ 2 ^ 32)
    (hu : a.user = true → ustack + stackSize ≤ 2 ^ 32 ∧
      (ustack + stackSize ≤ kstack ∨ kstack + stackSize ≤ ustack)) :
    let m' := (buildStack m kstack ustack a.entry a.args exitAddr a.user a.vm86).1
    FrameAt m' (kstack + stackSize - 72) (initialCpu a kstack ustack) ∧
    load32 m' ((if a.user then ustack else kstack) + stackSize - 4) = a.args % 2 ^ 32 ∧
    (a.user = false → load32 m' (kstack + stackSize - 8) = exitAddr % 2 ^ 32) ∧
    ∀ x, x < kstack ∨ kstack + stackSize ≤ x →
      (a.user = true → x < ustack ∨ ustack + stackSize ≤ x) → m' x = m x := by
  rw [stackSize] at hk hu ⊢
  cases huser : a.user with
  | false =>
    -- one stack: the argument and the return address, and the frame below them
    let xs := [a.args, exitAddr, 0x0202, 0x08, a.entry, 0, 0, 0, 0, 0, 0, 0, 0, 0, 0x10, 0x10, 0x10,
      0x10]
    have hst : (buildStack m kstack ustack a.entry a.args exitAddr false a.vm86).1 =
        (pushAll (m, (kstack + 0x2000) % 2 ^ 32) xs).1 := by
      simp only [buildStack, hvm, Bool.false_eq_true, if_false, Nat.or_zero, add32, stackSize,
        ← pushAll_append, xs, List.cons_append, List.nil_append]
    -- the words of the frame are the pushed ones, the last one first
    have hget : ∀ i w, (xs.map (· % 2 ^ 32)).reverse[i]? = some w →
        load32 (pushAll (m, (kstack + 0x2000) % 2 ^ 32) xs).1 (kstack + 0x2000 - 72 + 4 * i) = w :=
      fun i w hi => load32_pushAll m xs (by simp [xs]) hk hi
    have hoff := (pushAll_spec m xs (p := kstack + 0x2000) (by simp [xs]) hk).2.2
    intro m'
    rw [show m' = _ from hst]
    have hc := initialCpu_user a kstack ustack
    rw [huser] at hc
    refine ⟨?_, ?_, fun _ => ?_, fun x hx _ => hoff x (by simp [xs]; omega)⟩
    · refine ⟨(hget 0 _ rfl).trans ?_, (hget 1 _ rfl).trans ?_, (hget 2 _ rfl).trans ?_,
        (hget 3 _ rfl).trans ?_, (hget 4 _ rfl).trans ?_, (hget 5 _ rfl).trans ?_,
        (hget 6 _ rfl).trans ?_, (hget 7 _ rfl).trans ?_, (hget 8 _ rfl).trans ?_,
        (hget 9 _ rfl).trans ?_, (hget 10 _ rfl).trans ?_, (hget 13 _ rfl).trans ?_,
        (hget 14 _ rfl).trans ?_, (hget 15 _ rfl).trans ?_, ?_, ?_⟩
      case refine_15 =>
        rw [if_neg (by rw [hc]; decide)]
        simp only [initialCpu, huser, Bool.false_eq_true, if_false, BitVec.toNat_ofNat, stackSize]
        congr 1
      case refine_16 =>
        rw [if_neg (by rw [hc]; decide)]
        simp [initialCpu, huser, kernelData]
      all_goals simp [initialCpu, huser]
    · have hargs := hget 17 _ rfl
      rwa [show kstack + 0x2000 - 72 + 4 * 17 = kstack + 0x2000 - 4 by omega] at hargs
    · have hexit := hget 16 _ rfl
      rwa [show kstack + 0x2000 - 72 + 4 * 16 = kstack + 0x2000 - 8 by omega] at hexit
  | true =>
    obtain ⟨hu, hapart⟩ := hu huser
    -- the argument and the return address go to the user stack, the frame to the kernel stack
    let st := pushAll (m, (ustack + 0x2000) % 2 ^ 32) [a.args, 0xdeadcaca]
    let xs := [0x23, ustack + 0x2000 - 8, 0x3202, 0x1b, a.entry, 0, 0, 0, 0, 0, 0, 0, 0, 0, 0x23,
      0x23, 0x23, 0x23]
    obtain ⟨husp, -, huoff⟩ := pushAll_spec m [a.args, 0xdeadcaca] (p := ustack + 0x2000)
      (by simp) hu
    have hsp : st.2 = ustack + 0x2000 - 8 := husp.trans (Nat.mod_eq_of_lt (by simp; omega))
    have hst : (buildStack m kstack ustack a.entry a.args exitAddr true a.vm86).1 =
        (pushAll (st.1, (kstack + 0x2000) % 2 ^ 32) xs).1 := by
      simp only [buildStack, hvm, Bool.false_eq_true, if_false, if_true, Nat.or_zero, add32,
        stackSize, ← pushAll_append, xs, List.cons_append, List.nil_append, ← hsp, st]
    have hget : ∀ i w, (xs.map (· % 2 ^ 32)).reverse[i]? = some w →
        load32 (pushAll (st.1, (kstack + 0x2000) % 2 ^ 32) xs).1 (kstack + 0x2000 - 72 + 4 * i) =
          w :=
      fun i w hi => load32_pushAll st.1 xs (by simp [xs]) hk hi
    have hoff := (pushAll_spec st.1 xs (p := kstack + 0x2000) (by simp [xs]) hk).2.2
    intro m'
    rw [show m' = _ from hst]
    have hc := initialCpu_user a kstack ustack
    rw [huser] at hc
    refine ⟨?_, ?_, fun hf => ?_, fun x hx hxu => ?_⟩
    · refine ⟨(hget 0 _ rfl).trans ?_, (hget 1 _ rfl).trans ?_, (hget 2 _ rfl).trans ?_,
        (hget 3 _ rfl).trans ?_, (hget 4 _ rfl).trans ?_, (hget 5 _ rfl).trans ?_,
        (hget 6 _ rfl).trans ?_, (hget 7 _ rfl).trans ?_, (hget 8 _ rfl).trans ?_,
        (hget 9 _ rfl).trans ?_, (hget 10 _ rfl).trans ?_, (hget 13 _ rfl).trans ?_,
        (hget 14 _ rfl).trans ?_, (hget 15 _ rfl).trans ?_, ?_, ?_⟩
      case refine_15 =>
        rw [if_pos hc]
        refine (hget 16 _ rfl).trans ?_
        simp [initialCpu, huser, stackSize]
      case refine_16 =>
        rw [if_pos hc]
        refine (hget 17 _ rfl).trans ?_
        simp [initialCpu, huser]
      all_goals simp [initialCpu, huser]
    · -- the user stack is apart from the kernel stack
      have hkeep : load32 (pushAll (st.1, (kstack + 0x2000) % 2 ^ 32) xs).1 (ustack + 0x2000 - 4) =
          load32 st.1 (ustack + 0x2000 - 4) :=
        load32_congr fun x h1 h2 => hoff x (by simp [xs]; omega)
      have hargs := load32_pushAll m [a.args, 0xdeadcaca] (p := ustack + 0x2000)
        (by simp) hu (i := 1) rfl
      rw [show ustack + 0x2000 - 4 * [a.args, 0xdeadcaca].length + 4 * 1 = ustack + 0x2000 - 4 by
        simp] at hargs
      exact hkeep.trans hargs
    · exact absurd hf (by decide)
    · rw [hoff x (by simp [xs]; omega)]
      exact huoff x (by have := hxu rfl; simp; omega)

end Toutatis
