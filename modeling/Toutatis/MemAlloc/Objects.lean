import Toutatis.Lib.Objects
import Toutatis.MemAlloc.Runs

/-!
# Objects on the heap

What clients may rely on: the heap is a store of objects. A pointer that `alloc` returns names
a new object, apart from all others; an object keeps what its client writes to it until it is
given back, whatever splits, merges, growth and contraction the calls of other clients cause in
between. And when everything is given back, one free block is left.

An object has the bytes of its block between the tags, as many as were asked for or more.

## Key results

- `ShowsObjects.step`: every call of a client is a step of the abstract store
- `heap_refines_objects`: every run is a run of it
- `stored_byte_kept`: a byte that was stored is read back at any later time
- `heap_whole_when_empty`: no client, one free block
-/

namespace Toutatis

open ByteMem RedBlack Tiling Run Objects

/-! ## Clients -/

/-- What a client does: it asks for memory, gives an object back, or stores the byte `x` in the
    object `p`. -/
inductive ClientCall where
  | alloc (size : Nat) (fresh : NewPages)
  | free (p : Nat)
  | store (p i : Nat) (x : UInt8)

/-- The call as one of the runs of the heap. -/
def ClientCall.toHeap (s : HeapRun) : ClientCall → HeapCall
  | .alloc size fresh => .alloc size fresh
  | .free p => .free p
  | .store p i x => .write (Function.update s.heap.mem (p + i) x)

/-- One call. -/
def ClientCall.exec (s : HeapRun) (c : ClientCall) : Option HeapRun := (c.toHeap s).exec s

/-- Clients use what they hold, within its bounds. -/
def ClientCall.Allowed (s : HeapRun) : ClientCall → Prop
  | .alloc _ _ => True
  | .free p => p ∈ s.live
  | .store p i _ => p ∈ s.live ∧ i < s.heap.userSize p

/-- A contraction leaves nothing of the block, or a whole one. -/
def ClientCall.Clean (s : HeapRun) (c : ClientCall) : Prop := (c.toHeap s).Clean s

/-- What a call is for the abstract store. The new object has the bytes that were asked for,
    unless the size of its block wraps around. -/
def ClientCall.Fits : ClientCall → Event UInt8 → Prop
  | .alloc size _, .take _ n => size + 19 < 2 ^ 32 → size ≤ n
  | .free p, .give q => q = p
  | .store p i x, .put q j y => q = p ∧ j = i ∧ y = x
  | _, _ => False

/-- The objects that the heap shows. -/
structure ShowsObjects (s : HeapRun) (a : Store UInt8) : Prop where
  size : ∀ p, a.size p = if p ∈ s.live then some (s.heap.userSize p) else none
  get : ∀ p ∈ s.live, ∀ i < s.heap.userSize p, s.heap.mem (p + i) = a.get p i

section

variable {s s' : HeapRun} {a : Store UInt8} {B B' : List Tile} {T T' : ColorTree Entry} {b : Tile}
  {c : ClientCall} {limit p : Nat} {h : Heap}

/-! ## Blocks and objects -/

/-- What is left of a block for the client. -/
theorem HeapInv.userSize_eq (hi : HeapInv h B T) (hb : b ∈ B) :
    h.userSize (b.addr + 8) = b.size - 16 := by
  have haddr : b.addr + 8 - 4 = b.addr + 4 := by omega
  unfold Heap.userSize
  rw [haddr, (hi.tagged b hb).head.size]

/-- The bytes of an object lie in its block. -/
theorem HeapInv.object_has (hi : HeapInv h B T) (hb : b ∈ B) {i : Nat} (hlt : i < b.size - 16) :
    b.Has (b.addr + 8 + i) := by
  have hlen := (hi.inside hb).stop_eq
  simp only [Tile.Has, Tile.stop] at *
  omega

/-- A block whose bytes are the same shows the same object. -/
theorem HeapInv.object_same {h' : Heap} (hi : HeapInv h B T) (hb : b ∈ B)
    (hsame : ∀ x, b.Has x → h'.mem x = h.mem x) :
    h'.userSize (b.addr + 8) = h.userSize (b.addr + 8) ∧
      ∀ i < h.userSize (b.addr + 8), h'.mem (b.addr + 8 + i) = h.mem (b.addr + 8 + i) := by
  have hlen := (hi.inside hb).stop_eq
  have hword : load32 h'.mem (b.addr + 8 - 4) = load32 h.mem (b.addr + 8 - 4) := by
    apply load32_congr
    intro x h1 h2
    apply hsame
    simp only [Tile.Has]
    omega
  constructor
  · rw [Heap.userSize, hword, Heap.userSize]
  · intro i hlt
    rw [hi.userSize_eq hb] at hlt
    exact hsame _ (hi.object_has hb hlt)

/-- A call of `alloc` that returns had a free block or room to grow. -/
theorem HeapRun.Holds.room (hs : s.Holds limit B T) {size : Nat} {fresh : NewPages}
    (hcall : (HeapCall.alloc size fresh).exec s = some s') :
    (∃ b ∈ B, b.free = true ∧ getBlockSize size ≤ b.size) ∨
      CanGrow s.heap (getBlockSize size) := by
  have hi := hs.inv
  by_contra hroom
  rw [not_or] at hroom
  obtain ⟨node, m₁, tree₁, T₁, hremove, -, hcases⟩ := hi.remove_best (getBlockSize size)
  have hnode : node = 0 := by
    -- a block that fits contradicts the assumption
    rcases hcases with ⟨hnode, -⟩ | ⟨pre, c, post, hlist, -, hfree, hle, -⟩
    · exact hnode
    · exact absurd ⟨c, by rw [hlist]; simp, hfree, hle⟩ hroom.1
  rw [hnode] at hremove
  have hsum : add32 s.heap.startAddress s.heap.maxSize ≤ limit :=
    le_trans (Nat.mod_le _ _) hs.max_le
  rw [HeapCall.exec, hi.alloc_fault hs.clear hs.stop_le hsum (by rw [if_pos rfl]; exact hremove)
    hroom.2 fresh] at hcall
  exact absurd hcall (by simp)

/-- **`alloc`**: the new object is not one of those in use, and these stay as they are. -/
theorem HeapRun.Holds.alloc_objects (hs : s.Holds limit B T) {size : Nat} {fresh : NewPages}
    (hcall : (HeapCall.alloc size fresh).exec s = some s') :
    ∃ p, s'.live = p :: s.live ∧ p ∉ s.live ∧
      (size + 19 < 2 ^ 32 → size ≤ s'.heap.userSize p) ∧
      ∀ q ∈ s.live, s'.heap.userSize q = s.heap.userSize q ∧
        (∀ i < s.heap.userSize q, s'.heap.mem (q + i) = s.heap.mem (q + i)) ∧
        (p + s'.heap.userSize p ≤ q ∨ q + s.heap.userSize q ≤ p) := by
  have hi := hs.inv
  obtain ⟨p, h', B', T', hserve, hi', hserved, -, -⟩ := hi.alloc_served (hs.room hcall) fresh
  obtain ⟨c, hc, hcused, hp, hcsize, hcnew, -⟩ := hserved.block
  rw [HeapCall.exec, hserve, Option.map_some, Option.some.injEq] at hcall
  subst hcall
  have hp0 : p ≠ 0 := by omega
  simp only [if_neg hp0]
  have hclen := (hi'.inside hc).stop_eq
  refine ⟨p, rfl, fun hmem => ?_, fun hsize => ?_, fun q hq => ?_⟩
  · -- the new block was free, so it is none of the objects
    obtain ⟨b, hb, hused, hpb⟩ := (hs.live p).mp hmem
    have heq := hi'.tiles.eq_of_addr (hserved.kept b hb hused) hc (by omega)
    exact hcnew b hb hused heq
  · -- header and footer take 16 bytes
    have hle := le_getBlockSize hsize
    rw [hp, hi'.userSize_eq hc]
    omega
  · -- the block of another object is kept, and lies apart from the new one
    obtain ⟨b, hb, hused, rfl⟩ := (hs.live q).mp hq
    have hb' := hserved.kept b hb hused
    have hin := hi.inside hb
    have hlt := hi.end_lt
    obtain ⟨hsize, hget⟩ := hi.object_same hb fun x hx =>
      hserved.same x (by have := hx.2; have := hin.stop_le; omega)
        (Or.inr (Or.inr ⟨b, hb, hused, hx⟩))
    refine ⟨hsize, hget, ?_⟩
    have hapart := hi'.tiles.apart hc hb' (Ne.symm (hcnew b hb hused))
    have hblen := hin.stop_eq
    rw [hp, hi'.userSize_eq hc, hi.userSize_eq hb]
    simp only [Tile.stop] at *
    omega

/-- **`free`**: all objects but the one that is given back stay as they are. -/
theorem HeapRun.Holds.free_objects (hs : s.Holds limit B T) (hok : (HeapCall.free p).Allowed s)
    (hclean : (HeapCall.free p).Clean s) (hcall : (HeapCall.free p).exec s = some s') :
    s'.live = s.live.erase p ∧
      ∀ q ∈ s.live, q ≠ p → s'.heap.userSize q = s.heap.userSize q ∧
        ∀ i < s.heap.userSize q, s'.heap.mem (q + i) = s.heap.mem (q + i) := by
  have hi := hs.inv
  obtain ⟨b, hb, hused, rfl⟩ := (hs.live p).mp hok
  rw [HeapCall.exec] at hcall
  obtain ⟨⟨e, h'⟩, hfree, rfl⟩ := Option.map_eq_some_iff.mp hcall
  refine ⟨rfl, fun q hq hne => ?_⟩
  obtain ⟨c, hc, hcused, rfl⟩ := (hs.live q).mp hq
  have hcb : c ≠ b := fun heq => hne (by rw [heq])
  apply hi.object_same hc
  intro x hx
  have hlt : x < 2 ^ 32 :=
    lt_of_lt_of_le hx.2 (le_trans (hi.inside hc).stop_le (le_of_lt hi.end_lt))
  by_cases hlast : b.stop = s.heap.endAddress
  · -- the block behind the last one is not mapped
    have hout := hs.clear _ (le_refl _) (Nat.div_le_div_right hs.stop_le)
    rw [← Heap.freeWith_shrink, hi.free_last_fault hb hused hlast hout] at hfree
    exact absurd hfree (by simp)
  by_cases hcon : s.heap.FreeContracts B b
  · obtain ⟨hmin, B₀, u₀, hco₀, hstop₀⟩ := id hcon
    have hto : s.heap.ContractsTo (b.addr + 8) u₀ :=
      ⟨B, T, b, B₀, hi, hb, hused, rfl, hco₀, hstop₀, hmin⟩
    have hrest : s.heap.ContractsClean B b := by
      intro C u hu
      rw [hu.unique hco₀ hi.noFreePair hi.tiles]
      exact hclean u₀ hto
    obtain ⟨h₁, B₁, T₁, u, hfree₁, -, hcontracted⟩ := hi.free_contract hb hused hlast hcon hrest
    obtain ⟨-, rfl⟩ := Prod.mk.inj (Option.some.inj (hfree.symm.trans hfree₁))
    exact hcontracted.same x hlt ⟨c, hc, hcused, hcb, hx⟩
  · obtain ⟨pre, post, rfl⟩ := List.append_of_mem hb
    have hpost : post ≠ [] := by
      rintro rfl
      exact hlast hi.tiles.split.2.2
    obtain ⟨m', tree', T', B', u, hfree₁, -, -, hsame, -⟩ := hi.free_spec hused hpost hcon
    obtain ⟨-, rfl⟩ := Prod.mk.inj (Option.some.inj (hfree.symm.trans hfree₁))
    have hother : c ∈ pre ++ post := by
      simp only [List.mem_append, List.mem_cons] at hc ⊢
      rcases hc with hc | hc | hc
      · exact Or.inl hc
      · exact absurd hc hcb
      · exact Or.inr hc
    exact hsame x hlt (Or.inr (Or.inr ⟨c, hother, hcused, hx⟩))

/-- A call that clients may make is one that the heap allows. -/
theorem ClientCall.Allowed.toHeap (hok : c.Allowed s) : (c.toHeap s).Allowed s := by
  cases c with
  | alloc size fresh => trivial
  | free p => exact hok
  | store p i x =>
    intro y hy
    apply Function.update_of_ne
    intro heq
    have hout := hy p hok.1
    have hlt := hok.2
    omega

/-- A store to an object is no part of the layout, and no part of another object. -/
theorem HeapRun.Holds.store_objects (hs : s.Holds limit B T) {i : Nat} {x : UInt8}
    (hok : (ClientCall.store p i x).Allowed s) :
    HeapRun.Holds limit ⟨s.heap.withMem (Function.update s.heap.mem (p + i) x), s.live⟩ B T ∧
      ∀ q ∈ s.live,
        (s.heap.withMem (Function.update s.heap.mem (p + i) x)).userSize q = s.heap.userSize q ∧
        ∀ j < s.heap.userSize q, q ≠ p → q + j ≠ p + i := by
  have hs' := hs.write hok.toHeap
  obtain ⟨hp, hlt⟩ := hok
  refine ⟨hs', fun q hq => ?_⟩
  obtain ⟨b, hb, hused, rfl⟩ := (hs.live p).mp hp
  obtain ⟨c, hc, hcused, rfl⟩ := (hs.live q).mp hq
  constructor
  · rw [hs'.inv.userSize_eq hc, hs.inv.userSize_eq hc]
  · intro j hj hne
    have hapart := hs.inv.tiles.apart hc hb fun heq => hne (by rw [heq])
    have hblen := (hs.inv.inside hb).stop_eq
    have hclen := (hs.inv.inside hc).stop_eq
    rw [hs.inv.userSize_eq hb] at hlt
    rw [hs.inv.userSize_eq hc] at hj
    simp only [Tile.stop] at *
    omega

/-! ## The abstract store -/

/-- `alloc` adds an object, or refuses. -/
theorem ShowsObjects.alloc (hshow : ShowsObjects s a) (hs : s.Holds limit B T) {size : Nat}
    {fresh : NewPages} (hcall : (HeapCall.alloc size fresh).exec s = some s') :
    ∃ e a', ClientCall.Fits (.alloc size fresh) e ∧ Step a e a' ∧ ShowsObjects s' a' := by
  obtain ⟨p, hlive, hnew, hsize, hkept⟩ := hs.alloc_objects hcall
  have hfresh : a.size p = none := by rw [hshow.size, if_neg hnew]
  refine ⟨.take p (s'.heap.userSize p), _, hsize,
    Step.take (fun i => s'.heap.mem (p + i)) hfresh fun q k hq => ?_, ?_, ?_⟩
  · -- the new object is apart from the others
    rw [hshow.size] at hq
    by_cases hmem : q ∈ s.live
    · rw [if_pos hmem, Option.some.injEq] at hq
      rw [← hq]
      exact (hkept q hmem).2.2
    · rw [if_neg hmem] at hq
      exact absurd hq (by simp)
  · -- the sizes
    intro q
    by_cases hqp : q = p
    · simp only [hqp, hlive, if_pos List.mem_cons_self, Function.update_self]
    · simp only [Function.update_of_ne hqp, hshow.size, hlive, List.mem_cons, hqp, false_or]
      by_cases hmem : q ∈ s.live
      · rw [if_pos hmem, if_pos hmem, (hkept q hmem).1]
      · rw [if_neg hmem, if_neg hmem]
  · -- the contents
    intro q hq i hi
    by_cases hqp : q = p
    · rw [hqp]
      simp only [Function.update_self]
    · rw [hlive, List.mem_cons] at hq
      have hmem := hq.resolve_left hqp
      obtain ⟨hsame, hget, -⟩ := hkept q hmem
      rw [hsame] at hi
      simp only [Function.update_of_ne hqp]
      exact (hget i hi).trans (hshow.get q hmem i hi)

/-- `free` takes an object away. -/
theorem ShowsObjects.free (hshow : ShowsObjects s a) (hs : s.Holds limit B T)
    (hok : (HeapCall.free p).Allowed s) (hclean : (HeapCall.free p).Clean s)
    (hcall : (HeapCall.free p).exec s = some s') :
    ∃ e a', ClientCall.Fits (.free p) e ∧ Step a e a' ∧ ShowsObjects s' a' := by
  obtain ⟨hlive, hkept⟩ := hs.free_objects hok hclean hcall
  have hmem : ∀ q, q ∈ s'.live ↔ q ≠ p ∧ q ∈ s.live := by
    intro q
    rw [hlive, hs.nodup.mem_erase_iff]
  have hused : a.size p = some (s.heap.userSize p) := by
    rw [hshow.size, if_pos (show p ∈ s.live from hok)]
  refine ⟨.give p, _, rfl, Step.give hused, ?_, ?_⟩
  · -- the sizes
    intro q
    by_cases hqp : q = p
    · simp only [hqp, Function.update_self, if_neg fun h => ((hmem p).mp h).1 rfl]
    · simp only [Function.update_of_ne hqp, hshow.size]
      by_cases hq : q ∈ s.live
      · rw [if_pos hq, if_pos ((hmem q).mpr ⟨hqp, hq⟩), (hkept q hq hqp).1]
      · rw [if_neg hq, if_neg fun h => hq ((hmem q).mp h).2]
  · -- the contents
    intro q hq i hi
    obtain ⟨hqp, hq⟩ := (hmem q).mp hq
    obtain ⟨hsame, hget⟩ := hkept q hq hqp
    rw [hsame] at hi
    exact (hget i hi).trans (hshow.get q hq i hi)

/-- A store changes one byte of one object. -/
theorem ShowsObjects.store (hshow : ShowsObjects s a) (hs : s.Holds limit B T) {i : Nat}
    {x : UInt8} (hok : (ClientCall.store p i x).Allowed s)
    (hcall : (ClientCall.store p i x).exec s = some s') :
    ∃ e a', ClientCall.Fits (.store p i x) e ∧ Step a e a' ∧ ShowsObjects s' a' := by
  obtain ⟨-, hkept⟩ := hs.store_objects hok
  obtain ⟨hp, hlt⟩ := hok
  obtain rfl := Option.some.inj hcall
  have hcell : a.HasCell p i := ⟨s.heap.userSize p, by rw [hshow.size, if_pos hp], hlt⟩
  refine ⟨.put p i x, _, ⟨rfl, rfl, rfl⟩, Step.put x hcell, ?_, ?_⟩
  · -- no size changes
    intro q
    simp only [hshow.size]
    by_cases hq : q ∈ s.live
    · rw [if_pos hq, if_pos hq, (hkept q hq).1]
    · rw [if_neg hq, if_neg hq]
  · -- the contents: one byte of one object
    intro q hq j hj
    obtain ⟨hsame, hne⟩ := hkept q hq
    have hjlt : j < s.heap.userSize q := lt_of_lt_of_eq hj hsame
    show Function.update s.heap.mem (p + i) x (q + j) = _
    by_cases hqp : q = p
    · subst hqp
      simp only [Function.update_self]
      by_cases hji : j = i
      · rw [hji, Function.update_self, Function.update_self]
      · rw [Function.update_of_ne hji, Function.update_of_ne (by omega)]
        exact hshow.get q hq j hjlt
    · rw [Function.update_of_ne (hne j hjlt hqp)]
      simp only [Function.update_of_ne hqp]
      exact hshow.get q hq j hjlt

/-- **Every call is a step of the store.** -/
theorem ShowsObjects.step (hshow : ShowsObjects s a) (hs : s.Holds limit B T)
    (hok : c.Allowed s) (hclean : c.Clean s) (hcall : c.exec s = some s') :
    ∃ e a', c.Fits e ∧ Step a e a' ∧ ShowsObjects s' a' := by
  cases c with
  | alloc size fresh => exact hshow.alloc hs hcall
  | free p => exact hshow.free hs hok hclean hcall
  | store p i x => exact hshow.store hs hok hcall

/-! ## Runs -/

variable {h₀ : Heap} {start stop minSize maxSize i : Nat} {x : UInt8} {cs ds : List ClientCall}
  {es : List (Event UInt8)}

/-- The heap keeps its invariant and shows the store. -/
def HeapRun.Shows (limit : Nat) (h : Heap) (s : HeapRun) (a : Store UInt8) : Prop :=
  s.Good limit h ∧ ShowsObjects s a

/-- Every call is a step of the store. -/
theorem HeapRun.Shows.step (hshow : s.Shows limit h a) (hok : c.Allowed s ∧ c.Clean s)
    (hcall : c.exec s = some s') : ∃ e a', c.Fits e ∧ Step a e a' ∧ s'.Shows limit h a' := by
  obtain ⟨hgood, hobjects⟩ := hshow
  obtain ⟨B, T, hs, hlimits⟩ := id hgood
  obtain ⟨e, a', hfits, hstep, hobjects'⟩ := hobjects.step hs hok.1 hok.2 hcall
  exact ⟨e, a', hfits, hstep, hgood.step hok.1.toHeap hok.2 hcall, hobjects'⟩

/-- Runs of clients are runs of the store. -/
theorem HeapRun.Shows.steps (hshow : s.Shows limit h a)
    (hok : Each ClientCall.exec ClientCall.Allowed s cs)
    (hclean : Each ClientCall.exec ClientCall.Clean s cs)
    (hrun : execAll ClientCall.exec s cs = some s') :
    ∃ es a', List.Forall₂ ClientCall.Fits cs es ∧ Steps Step a es a' ∧ s'.Shows limit h a' :=
  exists_steps (R := HeapRun.Shows limit h) (fun _ _ _ _ ht hc hcall => ht.step hc hcall) hshow
    (each_and hok hclean) hrun

/-- A new heap shows no objects. -/
theorem Started.shows (hs : Started h₀ start stop minSize maxSize h) :
    HeapRun.Shows (heapLimit start stop maxSize) h ⟨h, []⟩ (Store.empty 0) := by
  refine ⟨hs.holds.1, fun p => ?_, fun p hp => absurd hp (by simp)⟩
  rw [if_neg (by simp)]
  rfl

/-- **The heap is a store of objects.** Every run of clients that ask without an alignment and use
    only what they hold, in which every contraction leaves no piece of a block, is a run of the
    store: no object overlaps another, and the heap holds what the store holds. An object has the
    bytes that were asked for unless the size of its block wraps around. -/
theorem heap_refines_objects (hs : Started h₀ start stop minSize maxSize h)
    (hok : Each ClientCall.exec ClientCall.Allowed ⟨h, []⟩ cs)
    (hclean : Each ClientCall.exec ClientCall.Clean ⟨h, []⟩ cs)
    (hrun : execAll ClientCall.exec ⟨h, []⟩ cs = some s) :
    ∃ es a, List.Forall₂ ClientCall.Fits cs es ∧ Steps Step (Store.empty 0) es a ∧ a.Separate ∧
      ShowsObjects s a := by
  obtain ⟨es, a, hfits, hsteps, hshow⟩ := hs.shows.steps hok hclean hrun
  exact ⟨es, a, hfits, hsteps, Separate.steps (Store.separate_empty 0) hsteps, hshow.2⟩

/-- One client stores a byte in its object, and another one gives its object back. -/
def storeCalls : List ClientCall :=
  [.alloc 12 zeroPages, .alloc 12 zeroPages, .store 65612 3 7, .free 65640]

/-- A new heap of one page, which has its least size. -/
theorem exists_onePage : ∃ h T, Started pageHeap 0x10000 0x11000 4096 0x100000 h ∧
    HeapInv h [⟨65604, 4028, true⟩] T ∧ h.endAddress = 69632 ∧ h.startAddress = 65604 ∧
      h.minSize = 4096 := by
  obtain ⟨m₀, tree₀, T₀, hcreate, hi₀⟩ := HeapInv.create pageHeap_canCreate 4096 0x100000
  refine ⟨_, T₀, ⟨pageHeap_canCreate, fun x hx _ => ?_, hcreate⟩, hi₀, rfl, rfl, rfl⟩
  simp only [frameSize] at hx
  simp only [pageHeap, beq_eq_false_iff_ne]
  omega

/-- The calls in a new heap of one page. -/
theorem exists_stored : ∃ h s, Started pageHeap 0x10000 0x11000 4096 0x100000 h ∧
    Each ClientCall.exec ClientCall.Allowed ⟨h, []⟩ storeCalls ∧
    Each ClientCall.exec ClientCall.Clean ⟨h, []⟩ storeCalls ∧
    execAll ClientCall.exec ⟨h, []⟩ storeCalls = some s := by
  obtain ⟨h₀, T₀, hs, hi₀, hend₀, hstart₀, hmin₀⟩ := exists_onePage
  obtain ⟨h₁, T₁, hi₁, hend₁, hstart₁, hmin₁, hcall₁⟩ := HeapInv.alloc_last (B := []) hi₀
    (by simp) rfl (by decide : getBlockSize 12 ≤ 4028)
  obtain ⟨h₂, T₂, hi₂, hend₂, hstart₂, hmin₂, hcall₂⟩ := HeapInv.alloc_last
    (B := [⟨65604, 28, false⟩]) (b := ⟨65632, 4000, true⟩) hi₁ (by simp) rfl
    (by decide : getBlockSize 12 ≤ 4000)
  -- the byte is in the first block
  have hmem : ClientWrites ([⟨65604, 28, false⟩] ++
      cut minBlockSize ⟨65632, 4000, true⟩ (getBlockSize 12)) h₂.mem
      (Function.update h₂.mem (65612 + 3) 7) := by
    intro x hx
    apply Function.update_of_ne
    have hout := hx ⟨65604, 28, false⟩ (by simp) rfl
    simp only [Tile.stop] at hout
    omega
  have hi₃ := hi₂.clientWrites hmem
  have hsize : h₂.userSize 65612 = 12 := hi₂.userSize_eq (b := ⟨65604, 28, false⟩) (by simp)
  -- the heap has its least size and does not contract
  have hstop : h₂.endAddress = 69632 := hend₂.trans (hend₁.trans hend₀)
  have hfirst : h₂.startAddress = 65604 := hstart₂.trans (hstart₁.trans hstart₀)
  have hleast : h₂.minSize = 4096 := hmin₂.trans (hmin₁.trans hmin₀)
  obtain ⟨h₄, hcall₄⟩ : ∃ h₄,
      (h₂.withMem (Function.update h₂.mem (65612 + 3) 7)).free 65640 = some (none, h₄) := by
    obtain ⟨m, tree, T, B, u, hcall, -⟩ := @HeapInv.free_spec _ ⟨65632, 28, false⟩
      [⟨65604, 28, false⟩] [⟨65660, 3972, true⟩] _ hi₃ rfl (by simp) fun hno => by
        have hlt : h₂.minSize < h₂.endAddress - h₂.startAddress := hno.1
        omega
    exact ⟨_, hcall⟩
  have hexec₁ : (ClientCall.alloc 12 zeroPages).exec ⟨h₀, []⟩ = some ⟨h₁, [65612]⟩ := by
    rw [ClientCall.exec, ClientCall.toHeap, HeapCall.exec, hcall₁]
    rfl
  have hexec₂ : (ClientCall.alloc 12 zeroPages).exec ⟨h₁, [65612]⟩ =
      some ⟨h₂, [65640, 65612]⟩ := by
    rw [ClientCall.exec, ClientCall.toHeap, HeapCall.exec, hcall₂]
    rfl
  have hexec₃ : (ClientCall.store 65612 3 7).exec ⟨h₂, [65640, 65612]⟩ =
      some ⟨h₂.withMem (Function.update h₂.mem (65612 + 3) 7), [65640, 65612]⟩ := rfl
  have hexec₄ : (ClientCall.free 65640).exec
      ⟨h₂.withMem (Function.update h₂.mem (65612 + 3) 7), [65640, 65612]⟩ =
        some ⟨h₄, [65612]⟩ := by
    rw [ClientCall.exec, ClientCall.toHeap, HeapCall.exec, hcall₄]
    rfl
  refine ⟨h₀, ⟨h₄, [65612]⟩, hs, ?_, ?_, ?_⟩
  · unfold storeCalls
    rw [each_cons_some hexec₁, each_cons_some hexec₂, each_cons_some hexec₃, each_cons_some hexec₄]
    refine ⟨trivial, trivial, ⟨by simp, ?_⟩, List.mem_cons_self, trivial⟩
    rw [hsize]
    decide
  · unfold storeCalls
    rw [each_cons_some hexec₁, each_cons_some hexec₂, each_cons_some hexec₃, each_cons_some hexec₄]
    refine ⟨trivial, trivial, trivial, fun u hu => ?_, trivial⟩
    obtain ⟨B, T, b, B', -, -, -, -, -, -, hlt⟩ := hu
    have hlt : h₂.minSize < h₂.endAddress - h₂.startAddress := hlt
    omega
  · unfold storeCalls
    rw [execAll_cons_some hexec₁, execAll_cons_some hexec₂, execAll_cons_some hexec₃,
      execAll_cons_some hexec₄]
    rfl

/-- A byte is stored between two requests. -/
theorem heap_refines_objects_stored : ∃ h s es a,
    execAll ClientCall.exec ⟨h, []⟩ storeCalls = some s ∧ Steps Step (Store.empty 0) es a ∧
      a.Separate ∧ ShowsObjects s a := by
  obtain ⟨h, s, hs, hok, hclean, hrun⟩ := exists_stored
  obtain ⟨es, a, -, hsteps, hsep, hshow⟩ := heap_refines_objects hs hok hclean hrun
  exact ⟨h, s, es, a, hrun, hsteps, hsep, hshow⟩

/-- The call writes the byte `i` of the object `p` or gives the object back. -/
def ClientCall.Touches (p i : Nat) : ClientCall → Prop
  | .alloc _ _ => False
  | .free q => q = p
  | .store q j _ => q = p ∧ j = i

/-- An event touches no byte that its call does not touch. -/
theorem ClientCall.Fits.touches {e : Event UInt8} (hfits : c.Fits e) (hno : ¬ c.Touches p i) :
    ¬ e.Touches p i := by
  cases c with
  | alloc size fresh =>
    -- only a new object goes with `alloc`
    cases e with
    | take q n => exact id
    | give q => exact absurd hfits id
    | put q j y => exact absurd hfits id
  | free q =>
    -- only the end of an object goes with `free`
    cases e with
    | take r n => exact id
    | give r =>
      obtain rfl : r = q := hfits
      exact hno
    | put r j y => exact absurd hfits id
  | store q j y =>
    -- only a byte of an object goes with a store
    cases e with
    | take r n => exact id
    | give r => exact absurd hfits id
    | put r k z =>
      obtain ⟨rfl, rfl, -⟩ := hfits
      exact hno

/-- The same for a whole run. -/
theorem forall_not_touches (hfits : List.Forall₂ ClientCall.Fits cs es)
    (hno : ∀ c ∈ cs, ¬ c.Touches p i) : ∀ e ∈ es, ¬ e.Touches p i := by
  induction hfits with
  | nil => simp
  | cons hfit _ ih =>
    rw [List.forall_mem_cons] at hno ⊢
    exact ⟨hfit.touches hno.1, ih hno.2⟩

/-- **What is stored stays.** In every such run a byte that a client has stored in an object is
    there in every later state, as long as nobody stores to it again or gives the object back. -/
theorem stored_byte_kept (hs : Started h₀ start stop minSize maxSize h)
    (hok : Each ClientCall.exec ClientCall.Allowed ⟨h, []⟩ (cs ++ .store p i x :: ds))
    (hclean : Each ClientCall.exec ClientCall.Clean ⟨h, []⟩ (cs ++ .store p i x :: ds))
    (hno : ∀ c ∈ ds, ¬ c.Touches p i)
    (hrun : execAll ClientCall.exec ⟨h, []⟩ (cs ++ .store p i x :: ds) = some s) :
    p ∈ s.live ∧ i < s.heap.userSize p ∧ s.heap.mem (p + i) = x := by
  rw [each_append] at hok hclean
  rw [execAll_append, Option.bind_eq_some_iff] at hrun
  obtain ⟨s₁, hs₁, hrun⟩ := hrun
  rw [execAll, Option.bind_eq_some_iff] at hrun
  obtain ⟨s₂, hs₂, hrest⟩ := hrun
  obtain ⟨hok₁, hok₂⟩ := hok.2 s₁ hs₁
  obtain ⟨hclean₁, hclean₂⟩ := hclean.2 s₁ hs₁
  -- the calls before, the store and the calls after it, as runs of the abstract store
  obtain ⟨es₁, a₁, -, -, hshow₁⟩ := hs.shows.steps hok.1 hclean.1 hs₁
  obtain ⟨e, a₂, hfit, hstep, hshow₂⟩ := hshow₁.step ⟨hok₁, hclean₁⟩ hs₂
  obtain ⟨es, a, hfits, hsteps, -, hobjects⟩ := hshow₂.steps (hok₂ s₂ hs₂) (hclean₂ s₂ hs₂) hrest
  cases e with
  | take q n => exact absurd hfit id
  | give q => exact absurd hfit id
  | put q j y =>
    obtain ⟨rfl, rfl, rfl⟩ := hfit
    obtain ⟨hcell, hget⟩ := get_put hstep
    obtain ⟨⟨n, hn, hlt⟩, hkept⟩ := get_of_steps hsteps hcell (forall_not_touches hfits hno)
    rw [hobjects.size] at hn
    by_cases hp : q ∈ s.live
    · rw [if_pos hp, Option.some.injEq] at hn
      rw [← hn] at hlt
      exact ⟨hp, hlt, (hobjects.get q hp j hlt).trans (hkept.trans hget)⟩
    · rw [if_neg hp] at hn
      exact absurd hn (by simp)

/-- The byte 7 is found again. -/
theorem stored_byte_kept_seven : ∃ h s,
    execAll ClientCall.exec ⟨h, []⟩ storeCalls = some s ∧ s.heap.mem (65612 + 3) = 7 := by
  obtain ⟨h, s, hs, hok, hclean, hrun⟩ := exists_stored
  have hno : ∀ c ∈ [ClientCall.free 65640], ¬ c.Touches 65612 3 := by
    simp [ClientCall.Touches]
  have hcalls : storeCalls =
      [.alloc 12 zeroPages, .alloc 12 zeroPages] ++ .store 65612 3 7 :: [.free 65640] := rfl
  rw [hcalls] at hok hclean hrun
  obtain ⟨-, -, hmem⟩ := stored_byte_kept hs hok hclean hno hrun
  exact ⟨h, s, hrun, hmem⟩

/-! ## Nothing in use -/

/-- Tiles of which none is used are one tile. -/
theorem eq_of_all_free {start stop : Nat} (htiles : Tiles start stop B) (hpair : NoFreePair B)
    (hfree : ∀ b ∈ B, b.free = true) (hlt : start < stop) :
    B = [⟨start, stop - start, true⟩] := by
  cases B with
  | nil =>
    -- a stretch that is not empty has a tile
    have heq : start = stop := htiles
    omega
  | cons b B =>
    cases B with
    | nil =>
      obtain ⟨addr, size, free⟩ := b
      obtain ⟨haddr, -, hrest⟩ := htiles
      have hend : start + size = stop := hrest
      simp only at haddr
      rw [← hfree _ List.mem_cons_self, haddr, ← hend, Nat.add_sub_cancel_left]
    | cons c B =>
      -- two neighbours would be merged
      have hno := (List.isChain_cons_cons.mp hpair).1
      exact absurd ⟨hfree b (by simp), hfree c (by simp)⟩ hno

/-- **Nothing is lost.** When the clients of such a run have given back all their objects, one free
    block has the whole heap: every request without an alignment that fits into it is served at its
    start, without more memory. -/
theorem heap_whole_when_empty (hs : Started h₀ start stop minSize maxSize h)
    (hok : Each ClientCall.exec ClientCall.Allowed ⟨h, []⟩ cs)
    (hclean : Each ClientCall.exec ClientCall.Clean ⟨h, []⟩ cs)
    (hrun : execAll ClientCall.exec ⟨h, []⟩ cs = some s) (hempty : s.live = []) :
    s.heap.memUsed = 0 ∧ s.heap.memFree = s.heap.endAddress - s.heap.startAddress ∧
      ∀ size fresh, getBlockSize size ≤ s.heap.endAddress - s.heap.startAddress →
        ∃ h', s.heap.alloc fresh size 0 = some (s.heap.startAddress + 8, h') ∧
          h'.endAddress = s.heap.endAddress := by
  obtain ⟨es, a, -, -, ⟨B, T, hholds, -⟩, -⟩ := hs.shows.steps hok hclean hrun
  have hi := hholds.inv
  -- a used block would belong to a client
  have hfree : ∀ b ∈ B, b.free = true := by
    intro b hb
    by_contra hused
    have hlive := (hholds.live (b.addr + 8)).mpr ⟨b, hb, by simpa using hused, rfl⟩
    rw [hempty] at hlive
    exact absurd hlive (by simp)
  have hused : usedSize B = 0 := by
    rw [usedSize, List.sum_eq_zero_iff]
    intro n hn
    obtain ⟨b, hb, rfl⟩ := List.mem_map.mp hn
    rw [if_pos (hfree b hb)]
  have hsum := hi.tiles.usedSize_add_freeSize
  refine ⟨hi.used.trans hused, by rw [hi.memFree_eq]; omega, fun size fresh hle => ?_⟩
  have hpos : 0 < getBlockSize size := by
    simp only [getBlockSize]
    split
    · decide
    · simp only [minBlockSize] at *
      omega
  rw [eq_of_all_free hi.tiles hi.noFreePair hfree (by omega)] at hi
  obtain ⟨pre, c, post, m', tree', T', hlist, -, -, hcall, -⟩ :=
    hi.alloc_fit (Nat.zero_le 1) List.mem_cons_self rfl hle fresh (loopBound - 1)
  have haddr : c.addr = s.heap.startAddress := by
    have hmem : c ∈ pre ++ c :: post := by simp
    rw [← hlist, List.mem_singleton] at hmem
    rw [hmem]
  rw [haddr] at hcall
  exact ⟨_, hcall, rfl⟩

/-- An object comes and goes. -/
theorem heap_whole_when_empty_page : ∃ h s,
    execAll ClientCall.exec ⟨h, []⟩ [.alloc 12 zeroPages, .free 65612] = some s ∧
      s.heap.memUsed = 0 := by
  obtain ⟨h₀, T₀, hs, hi₀, hend₀, hstart₀, hmin₀⟩ := exists_onePage
  obtain ⟨h₁, T₁, hi₁, hend₁, hstart₁, hmin₁, hcall₁⟩ := HeapInv.alloc_last (B := []) hi₀
    (by simp) rfl (by decide : getBlockSize 12 ≤ 4028)
  have hstop : h₁.endAddress = 69632 := hend₁.trans hend₀
  have hfirst : h₁.startAddress = 65604 := hstart₁.trans hstart₀
  have hleast : h₁.minSize = 4096 := hmin₁.trans hmin₀
  obtain ⟨h₂, hcall₂⟩ : ∃ h₂, h₁.free 65612 = some (none, h₂) := by
    obtain ⟨m, tree, T, B, u, hcall, -⟩ := @HeapInv.free_spec _ ⟨65604, 28, false⟩ []
      [⟨65632, 4000, true⟩] _ hi₁ rfl (by simp) fun hno => by
        have hlt : h₁.minSize < h₁.endAddress - h₁.startAddress := hno.1
        omega
    exact ⟨_, hcall⟩
  have hexec₁ : (ClientCall.alloc 12 zeroPages).exec ⟨h₀, []⟩ = some ⟨h₁, [65612]⟩ := by
    rw [ClientCall.exec, ClientCall.toHeap, HeapCall.exec, hcall₁]
    rfl
  have hexec₂ : (ClientCall.free 65612).exec ⟨h₁, [65612]⟩ = some ⟨h₂, []⟩ := by
    rw [ClientCall.exec, ClientCall.toHeap, HeapCall.exec, hcall₂]
    rfl
  have hrun : execAll ClientCall.exec ⟨h₀, []⟩ [.alloc 12 zeroPages, .free 65612] =
      some ⟨h₂, []⟩ := by
    rw [execAll_cons_some hexec₁, execAll_cons_some hexec₂]
    rfl
  refine ⟨h₀, ⟨h₂, []⟩, hrun, (heap_whole_when_empty hs ?_ ?_ hrun rfl).1⟩
  · rw [each_cons_some hexec₁, each_cons_some hexec₂]
    exact ⟨trivial, List.mem_cons_self, trivial⟩
  · rw [each_cons_some hexec₁, each_cons_some hexec₂]
    refine ⟨trivial, fun v hv => ?_, trivial⟩
    obtain ⟨B, T, b, B', -, -, -, -, -, -, hlt⟩ := hv
    have hlt : h₁.minSize < h₁.endAddress - h₁.startAddress := hlt
    omega

end

end Toutatis
