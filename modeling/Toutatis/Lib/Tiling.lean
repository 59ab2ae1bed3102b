import Mathlib

/-!
# Tilings of an interval

Tiles of an interval of addresses, each free or used. `Tiles s e B` says that `B` covers the
interval from `s` to `e` without a gap. `merge` puts neighbours that are free together; what is
left when tiles are given back one after the other does not depend on their order.

## Key results

- `tiles_append`: a concatenation is a tiling when both parts are
- `Tiles.bounds`, `Tiles.apart`, `Tiles.mod_eq`: where the tiles lie
- `merge_append`, `merge_eq_self`: merging a tiling in parts, and one without free neighbours
- `merge_mark_merge`, `giveAll_perm`: the order of returns does not matter
- `Coalesced.eq_merge`: one return
-/

namespace Tiling

/-- A tile of `size` bytes at `addr`. -/
structure Tile where
  addr : Nat
  size : Nat
  free : Bool
deriving DecidableEq

/-- The address behind a tile. -/
def Tile.stop (b : Tile) : Nat := b.addr + b.size

/-- The address lies in the tile. -/
def Tile.Has (b : Tile) (x : Nat) : Prop := b.addr ≤ x ∧ x < b.stop

variable {s e m a : Nat} {B C : List Tile} {b c : Tile}

/-- The tiles cover the interval from `s` to `e`. -/
def Tiles : (s e : Nat) → List Tile → Prop
  | s, e, [] => s = e
  | s, e, b :: B => b.addr = s ∧ 0 < b.size ∧ Tiles (s + b.size) e B

/-- A tiled stretch ends behind its start. -/
theorem Tiles.le (h : Tiles s e B) : s ≤ e := by
  induction B generalizing s with
  | nil => exact Nat.le_of_eq h
  | cons b B ih => exact (Nat.le_add_right _ _).trans (ih h.2.2)

/-- Two stretches that meet are one. -/
theorem tiles_append : Tiles s e (B ++ C) ↔ ∃ m, Tiles s m B ∧ Tiles m e C := by
  induction B generalizing s with
  | nil => exact ⟨fun h => ⟨s, rfl, h⟩, fun ⟨m, hm, h⟩ => hm.symm ▸ h⟩
  | cons b B ih =>
    rw [List.cons_append, Tiles, ih]
    constructor
    · rintro ⟨h1, h2, m, h3, h4⟩
      exact ⟨m, ⟨h1, h2, h3⟩, h4⟩
    · rintro ⟨m, ⟨h1, h2, h3⟩, h4⟩
      exact ⟨h1, h2, m, h3, h4⟩

/-- One tile fills its stretch. -/
theorem tiles_singleton : Tiles s e [b] ↔ b.addr = s ∧ 0 < b.size ∧ b.stop = e := by
  simp only [Tiles, Tile.stop]
  constructor
  · rintro ⟨rfl, h, h'⟩
    exact ⟨rfl, h, h'⟩
  · rintro ⟨rfl, h, h'⟩
    exact ⟨rfl, h, h'⟩

/-- A tile lies inside the interval. -/
theorem Tiles.bounds (h : Tiles s e B) (hb : b ∈ B) : s ≤ b.addr ∧ 0 < b.size ∧ b.stop ≤ e := by
  obtain ⟨pre, post, rfl⟩ := List.append_of_mem hb
  obtain ⟨m, hpre, hm, hsize, hpost⟩ := tiles_append.mp h
  rw [Tile.stop, hm]
  exact ⟨hpre.le, hsize, hpost.le⟩

/-- The tiles cover what is between the bounds. -/
theorem Tiles.exists_mem (h : Tiles s e B) {x : Nat} (h1 : s ≤ x) (h2 : x < e) :
    ∃ b ∈ B, b.Has x := by
  induction B generalizing s with
  | nil =>
    have h : s = e := h
    omega
  | cons b B ih =>
    obtain ⟨rfl, -, hB⟩ := h
    by_cases hx : x < b.stop
    · exact ⟨b, by simp, h1, hx⟩
    · obtain ⟨c, hc, hplace⟩ := ih hB (by simp only [Tile.stop] at hx; omega)
      exact ⟨c, by simp [hc], hplace⟩

/-- A stretch is cut around one of its tiles. -/
theorem Tiles.split (h : Tiles s e (B ++ b :: C)) :
    Tiles s b.addr B ∧ 0 < b.size ∧ Tiles b.stop e C := by
  obtain ⟨m, hB, hm, hsize, hC⟩ := tiles_append.mp h
  rw [Tile.stop, hm]
  exact ⟨hB, hsize, hC⟩

/-- A tile closes the gap between two stretches. -/
theorem Tiles.join (hB : Tiles s b.addr B) (hb : 0 < b.size) (hC : Tiles b.stop e C) :
    Tiles s e (B ++ b :: C) :=
  tiles_append.mpr ⟨b.addr, hB, rfl, hb, hC⟩

/-- The tiles tell the end of the interval. -/
theorem Tiles.end_unique {e' : Nat} (h : Tiles s e B) (h' : Tiles s e' B) : e = e' := by
  induction B generalizing s with
  | nil => exact h.symm.trans h'
  | cons b B ih => exact ih h.2.2 h'.2.2

/-- The tiles and the end tell where the interval starts. -/
theorem Tiles.start_unique {s' : Nat} (h : Tiles s e B) (h' : Tiles s' e B) : s = s' := by
  cases B with
  | nil => exact h.trans h'.symm
  | cons b B => exact h.1.symm.trans h'.1

/-- Two tiles do not overlap. -/
theorem Tiles.apart (h : Tiles s e B) (hb : b ∈ B) (hc : c ∈ B) (hne : b ≠ c) :
    b.stop ≤ c.addr ∨ c.stop ≤ b.addr := by
  obtain ⟨pre, post, rfl⟩ := List.append_of_mem hb
  obtain ⟨hpre, -, hpost⟩ := h.split
  rcases List.mem_append.mp hc with hmem | hmem
  · exact Or.inr (hpre.bounds hmem).2.2
  · rcases List.mem_cons.mp hmem with rfl | hmem
    · exact absurd rfl hne
    · exact Or.inl (hpost.bounds hmem).1

/-- A tile is known by its address. -/
theorem Tiles.eq_of_addr (h : Tiles s e B) (hb : b ∈ B) (hc : c ∈ B) (haddr : b.addr = c.addr) :
    b = c := by
  by_contra hne
  have hb' := h.bounds hb
  have hc' := h.bounds hc
  have := h.apart hb hc hne
  simp only [Tile.stop] at *
  omega

/-- No two tiles start at the same place. -/
theorem Tiles.nodup_addr (h : Tiles s e B) : (B.map Tile.addr).Nodup := by
  induction B generalizing s with
  | nil => exact List.nodup_nil
  | cons b B ih =>
    obtain ⟨rfl, hpos, hB⟩ := h
    refine List.nodup_cons.mpr ⟨fun hmem => ?_, ih hB⟩
    obtain ⟨c, hc, heq⟩ := List.mem_map.mp hmem
    have := (hB.bounds hc).1
    omega

/-- Tiles of aligned sizes are aligned like the ends of the interval. -/
theorem Tiles.mod_eq {n : Nat} (h : Tiles s e B) (hB : ∀ b ∈ B, b.size % n = 0) :
    s % n = e % n ∧ ∀ b ∈ B, b.addr % n = e % n := by
  induction B generalizing s with
  | nil =>
    obtain rfl : s = e := h
    exact ⟨rfl, fun b hb => absurd hb List.not_mem_nil⟩
  | cons c B ih =>
    obtain ⟨rfl, -, hrest⟩ := h
    obtain ⟨he, hB'⟩ := ih hrest fun b hb => hB b (by simp [hb])
    have hc : c.addr % n = e % n := by
      rw [← he, Nat.add_mod, hB c (by simp), Nat.add_zero, Nat.mod_mod]
    exact ⟨hc, List.forall_mem_cons.mpr ⟨hc, hB'⟩⟩

/-! ## Sizes -/

/-- The bytes in used tiles. -/
def usedSize (B : List Tile) : Nat := (B.map fun b => if b.free then 0 else b.size).sum

/-- Nothing is used by no tile. -/
@[simp]
theorem usedSize_nil : usedSize [] = 0 := rfl

/-- The used size, tile by tile. -/
@[simp]
theorem usedSize_cons : usedSize (b :: B) = (if b.free then 0 else b.size) + usedSize B := by
  simp [usedSize]

/-- The used size of two stretches. -/
@[simp]
theorem usedSize_append : usedSize (B ++ C) = usedSize B + usedSize C := by
  simp [usedSize]

/-- A part of the tiles has no more used bytes. -/
theorem usedSize_le_of_subperm (h : B.Subperm C) : usedSize B ≤ usedSize C := by
  obtain ⟨l, hperm, hsub⟩ := h
  have hl : usedSize B = usedSize l := ((hperm.symm.map _).sum_eq)
  rw [hl]
  clear hperm hl
  induction hsub with
  | slnil => exact le_refl _
  | cons c _ ih =>
    rw [usedSize_cons]
    omega
  | cons_cons c _ ih =>
    rw [usedSize_cons, usedSize_cons]
    omega

/-- Free tiles do not count. -/
theorem usedSize_filter (B : List Tile) : usedSize (B.filter fun b => !b.free) = usedSize B := by
  induction B with
  | nil => rfl
  | cons b B ih =>
    rw [List.filter_cons, usedSize_cons]
    cases hb : b.free
    · simp [hb, ih]
    · simp [ih]

/-- When one used tile is added and the count grows by its size, there is no other new one. -/
theorem mem_of_usedSize {d : Tile} (hkept : ∀ b ∈ B, b.free = false → b ∈ C)
    (hsum : usedSize C = usedSize B + c.size) (hB : B.Nodup) (hc : c ∈ C) (hcused : c.free = false)
    (hnew : c ∉ B) (hd : d ∈ C) (hdused : d.free = false) (hpos : 0 < d.size) : d = c ∨ d ∈ B := by
  by_contra hnot
  rw [not_or] at hnot
  obtain ⟨hdc, hdB⟩ := hnot
  -- otherwise both of them and all the old ones are among the used tiles
  have hnodup : (d :: c :: B.filter fun b => !b.free).Nodup := by
    refine List.nodup_cons.mpr ⟨?_, List.nodup_cons.mpr ⟨?_, hB.filter _⟩⟩
    · simp [hdc, hdB]
    · simp [hnew]
  have hsubset : (d :: c :: B.filter fun b => !b.free) ⊆ C := by
    intro b hb
    simp only [List.mem_cons, List.mem_filter, Bool.not_eq_true'] at hb
    rcases hb with rfl | rfl | ⟨hb, hbused⟩
    · exact hd
    · exact hc
    · exact hkept b hb hbused
  have hle := usedSize_le_of_subperm (hnodup.subperm hsubset)
  rw [usedSize_cons, usedSize_cons, usedSize_filter, hcused, hdused] at hle
  simp only [Bool.false_eq_true, if_false] at hle
  omega

/-- The bytes in free tiles. -/
def freeSize (B : List Tile) : Nat := (B.map fun b => if b.free then b.size else 0).sum

/-- Every byte is in a used tile or in a free one. -/
theorem Tiles.usedSize_add_freeSize (h : Tiles s e B) : s + (usedSize B + freeSize B) = e := by
  induction B generalizing s with
  | nil => exact h
  | cons b B ih =>
    have hB := ih h.2.2
    simp only [usedSize, freeSize, List.map_cons, List.sum_cons] at hB ⊢
    cases b.free
    · simp only [Bool.false_eq_true, if_false]
      omega
    · simp only [if_true]
      omega

/-! ## Free neighbours -/

/-- No two neighbours are free. -/
def NoFreePair (B : List Tile) : Prop := B.IsChain fun b c => ¬ (b.free = true ∧ c.free = true)

/-- Next to a free tile there is a used one. -/
theorem NoFreePair.border (h : NoFreePair (B ++ C)) (hb : B.getLast? = some b)
    (hc : C.head? = some c) : ¬ (b.free = true ∧ c.free = true) :=
  (List.isChain_append.mp h).2.2 b hb c hc

/-- A tile in front, merged with the first one when both are free. -/
def glue (b : Tile) : List Tile → List Tile
  | [] => [b]
  | c :: C => if b.free && c.free then ⟨b.addr, b.size + c.size, true⟩ :: C else b :: c :: C

/-- Free neighbours put together. -/
def merge (B : List Tile) : List Tile := B.foldr glue []

/-- Nothing is merged. -/
@[simp]
theorem merge_nil : merge [] = [] := rfl

/-- Merging from the right. -/
@[simp]
theorem merge_cons : merge (b :: B) = glue b (merge B) := rfl

/-- A tile in use is not merged. -/
theorem glue_of_used (hb : b.free = false) (C : List Tile) : glue b C = b :: C := by
  cases C with
  | nil => rfl
  | cons c C => simp [glue, hb]

/-- What is put in front keeps its address and its mark. -/
theorem glue_eq_cons (b : Tile) (C : List Tile) :
    ∃ c D, glue b C = c :: D ∧ c.addr = b.addr ∧ c.free = b.free ∧ ∀ x ∈ D, x ∈ C := by
  cases C with
  | nil => exact ⟨b, [], rfl, rfl, rfl, fun x hx => hx⟩
  | cons c C =>
    by_cases h : (b.free && c.free) = true
    · refine ⟨_, C, if_pos h, rfl, ?_, fun x hx => List.mem_cons_of_mem c hx⟩
      exact (Bool.and_eq_true_iff.mp h).1.symm
    · exact ⟨b, c :: C, if_neg h, rfl, rfl, fun x hx => hx⟩

/-- Merging leaves at least one tile. -/
theorem merge_ne_nil (b : Tile) (B : List Tile) : merge (b :: B) ≠ [] := by
  obtain ⟨c, D, h, -⟩ := glue_eq_cons b (merge B)
  rw [merge_cons, h]
  exact List.cons_ne_nil c D

/-- A merged tile starts where a tile with the same mark did. -/
theorem exists_of_mem_merge (h : c ∈ merge B) : ∃ b ∈ B, b.addr = c.addr ∧ b.free = c.free := by
  induction B with
  | nil => exact absurd h List.not_mem_nil
  | cons b B ih =>
    obtain ⟨d, D, hd, haddr, hfree, hD⟩ := glue_eq_cons b (merge B)
    rw [merge_cons, hd] at h
    rcases List.mem_cons.mp h with rfl | h
    · exact ⟨b, by simp, haddr.symm, hfree.symm⟩
    · obtain ⟨x, hx, hx'⟩ := ih (hD c h)
      exact ⟨x, by simp [hx], hx'⟩

/-- Merging in parts, at a border that is not between free tiles. -/
theorem merge_append (h : ∀ b c, B.getLast? = some b → C.head? = some c →
    ¬ (b.free = true ∧ c.free = true)) : merge (B ++ C) = merge B ++ merge C := by
  induction B with
  | nil => rfl
  | cons b B ih =>
    rw [List.cons_append, merge_cons, merge_cons]
    cases B with
    | nil =>
      cases C with
      | nil => simp [glue]
      | cons c C =>
        -- at the border the last tile of B meets the first of C, and they are not glued
        obtain ⟨d, D, hd, -, hfree, -⟩ := glue_eq_cons c (merge C)
        have hnot := h b c rfl rfl
        rw [List.nil_append, merge_cons, hd, merge_nil]
        simp only [glue, hfree]
        rw [if_neg (by simpa using hnot)]
        rfl
    | cons b' B =>
      rw [ih fun x y hx hy => h x y (by rw [List.getLast?_cons_cons]; exact hx) hy]
      obtain ⟨d, D, hd⟩ := List.exists_cons_of_ne_nil (merge_ne_nil b' B)
      rw [hd, List.cons_append]
      simp only [glue]
      split
      · rfl
      · rfl

/-- Without free neighbours there is nothing to merge. -/
theorem merge_eq_self (h : NoFreePair B) : merge B = B := by
  induction B with
  | nil => rfl
  | cons b B ih =>
    rw [merge_cons, ih h.of_cons]
    cases B with
    | nil => rfl
    | cons c B =>
      have hnot := (List.isChain_cons_cons.mp h).1
      rw [glue, if_neg (by simpa using hnot)]

/-- Nothing is left to merge. -/
theorem noFreePair_merge (B : List Tile) : NoFreePair (merge B) := by
  induction B with
  | nil => exact List.isChain_nil
  | cons b B ih =>
    rw [merge_cons]
    cases hB : merge B with
    | nil => exact List.isChain_singleton b
    | cons c C =>
      rw [hB] at ih
      rw [glue]
      split
      · -- two free tiles are glued, and the tile behind them is in use
        rename_i hboth
        rw [Bool.and_eq_true] at hboth
        cases C with
        | nil => exact List.isChain_singleton _
        | cons d D =>
          obtain ⟨hcd, hrest⟩ := List.isChain_cons_cons.mp ih
          exact List.isChain_cons_cons.mpr ⟨fun hd => hcd ⟨hboth.2, hd.2⟩, hrest⟩
      · -- the tiles are not both free
        rename_i hnot
        exact List.isChain_cons_cons.mpr ⟨by simpa using hnot, ih⟩

/-- Merging once is enough. -/
theorem merge_merge (B : List Tile) : merge (merge B) = merge B := merge_eq_self (noFreePair_merge B)

/-- Three free tiles can be put together in either order. -/
theorem glue_glue (hb : b.free = true) (hc : c.free = true) (C : List Tile) :
    glue b (glue c C) = glue ⟨b.addr, b.size + c.size, true⟩ C := by
  cases C with
  | nil => simp [glue, hb, hc]
  | cons d D =>
    cases hd : d.free
    · simp [glue, hb, hc, hd]
    · simp [glue, hb, hc, hd, Nat.add_assoc]

/-! ## Giving tiles back -/

/-- The tile at `a` is marked free. -/
def mark (a : Nat) (B : List Tile) : List Tile :=
  B.map fun b => if b.addr = a then { b with free := true } else b

/-- Marking a place without a tile changes nothing. -/
theorem mark_eq_self (h : ∀ b ∈ B, b.addr ≠ a) : mark a B = B := by
  rw [mark]
  conv_rhs => rw [← List.map_id B]
  exact List.map_congr_left fun b hb => if_neg (h b hb)

/-- A tile that is given back to a merged tiling is merged with the same tiles in the end. -/
theorem merge_mark_merge (hused : ∀ b ∈ B, b.addr = a → b.free = false)
    (hnd : (B.map Tile.addr).Nodup) : merge (mark a (merge B)) = merge (mark a B) := by
  induction B with
  | nil => rfl
  | cons b B ih =>
    have ih := ih (fun x hx => hused x (by simp [hx])) (List.nodup_cons.mp hnd).2
    have hmark : ∀ x C, mark a (x :: C) =
        (if x.addr = a then { x with free := true } else x) :: mark a C := fun _ _ => rfl
    rw [hmark, merge_cons, merge_cons]
    by_cases hb : b.addr = a
    · -- the tile itself: nothing else is marked
      have hrest : ∀ x ∈ B, x.addr ≠ a := fun x hx heq => (List.nodup_cons.mp hnd).1 (by
        rw [hb, ← heq]
        exact List.mem_map_of_mem hx)
      have hrest' : ∀ x ∈ merge B, x.addr ≠ a := fun x hx heq => by
        obtain ⟨y, hy, haddr, -⟩ := exists_of_mem_merge hx
        exact hrest y hy (haddr.trans heq)
      rw [glue_of_used (hused b (by simp) hb), hmark, mark_eq_self hrest, mark_eq_self hrest',
        merge_cons, merge_merge]
    · -- it lies further back, in front of or inside of what `b` is merged with
      rw [if_neg hb, ← ih]
      cases hB : merge B with
      | nil => simp [glue, if_neg hb, mark]
      | cons c C =>
        rw [glue]
        split
        · rename_i hboth
          rw [Bool.and_eq_true] at hboth
          have hc : c.addr ≠ a := by
            intro heq
            obtain ⟨x, hx, haddr, hfree⟩ :=
              exists_of_mem_merge (hB ▸ List.mem_cons_self : c ∈ merge B)
            have := hused x (by simp [hx]) (haddr.trans heq)
            rw [hfree, hboth.2] at this
            exact absurd this (by decide)
          rw [hmark, hmark, if_neg hb, if_neg hc, merge_cons, merge_cons, glue_glue hboth.1 hboth.2]
        · rw [hmark, if_neg hb, merge_cons]

/-- The tiles at the addresses `as` are given back, one after the other. -/
def giveAll (B : List Tile) (as : List Nat) : List Tile := as.foldl (fun B a => merge (mark a B)) B

/-- All tiles at the addresses `as` are marked free. -/
def markAll (as : List Nat) (B : List Tile) : List Tile :=
  B.map fun b => if b.addr ∈ as then { b with free := true } else b

/-- Marking one after the other. -/
theorem markAll_cons (a : Nat) (as : List Nat) (B : List Tile) :
    markAll as (mark a B) = markAll (a :: as) B := by
  rw [markAll, mark, markAll, List.map_map]
  refine List.map_congr_left fun b _ => ?_
  simp only [Function.comp]
  by_cases hb : b.addr = a
  · simp [hb]
  · simp [hb]

/-- Marking keeps the places. -/
theorem map_addr_mark (a : Nat) (B : List Tile) : (mark a B).map Tile.addr = B.map Tile.addr := by
  rw [mark, List.map_map]
  refine List.map_congr_left fun b _ => ?_
  simp only [Function.comp]
  split
  · rfl
  · rfl

/-- **Returns in any order**: what is left is the merged tiling with all of them marked. -/
theorem giveAll_merge {as : List Nat} (has : as.Nodup) (hnd : (B.map Tile.addr).Nodup)
    (hused : ∀ a ∈ as, ∀ b ∈ B, b.addr = a → b.free = false) :
    giveAll (merge B) as = merge (markAll as B) := by
  induction as generalizing B with
  | nil =>
    have hmark : markAll [] B = B := by simp [markAll]
    rw [hmark]
    rfl
  | cons a as ih =>
    obtain ⟨hnot, has⟩ := List.nodup_cons.mp has
    have hstep : giveAll (merge B) (a :: as) = giveAll (merge (mark a (merge B))) as := rfl
    rw [hstep, merge_mark_merge (hused a (by simp)) hnd,
      ih has (by rwa [map_addr_mark]) fun a' ha' b hb haddr => ?_, markAll_cons]
    obtain ⟨x, hx, rfl⟩ := List.mem_map.mp hb
    -- the tile that was marked is not marked again
    by_cases hxa : x.addr = a
    · rw [if_pos hxa] at haddr
      exact absurd (hxa.symm.trans haddr ▸ ha') hnot
    · rw [if_neg hxa] at haddr ⊢
      exact hused a' (by simp [ha']) x hx haddr

/-- The order of the returns does not matter. -/
theorem giveAll_perm {as as' : List Nat} (hB : NoFreePair B) (hperm : as.Perm as')
    (has : as.Nodup) (hnd : (B.map Tile.addr).Nodup)
    (hused : ∀ a ∈ as, ∀ b ∈ B, b.addr = a → b.free = false) : giveAll B as = giveAll B as' := by
  have hmark : markAll as B = markAll as' B := by
    refine List.map_congr_left fun b _ => ?_
    simp only [hperm.mem_iff]
  have h := giveAll_merge has hnd hused
  have h' := giveAll_merge (hperm.nodup_iff.mp has) hnd
    fun a ha => hused a (hperm.mem_iff.mpr ha)
  rw [merge_eq_self hB] at h h'
  rw [h, h', hmark]

/-! ## Taking tiles -/

/-- A tile from which `n` bytes are taken; what is left over is a tile of its own when it has at
    least `k` bytes. -/
def cut (k : Nat) (c : Tile) (n : Nat) : List Tile :=
  if k ≤ c.size - n then [⟨c.addr, n, false⟩, ⟨c.addr + n, c.size - n, true⟩]
  else [⟨c.addr, c.size, false⟩]

/-- The bytes that are taken. -/
def taken (k : Nat) (c : Tile) (n : Nat) : Nat := if k ≤ c.size - n then n else c.size

/-- A tile that is cut is used up to the cut. -/
theorem usedSize_cut (k n : Nat) (c : Tile) : usedSize (cut k c n) = taken k c n := by
  rw [cut, taken]
  split
  · simp
  · simp

/-- What lies around a free tile. -/
theorem NoFreePair.around (h : NoFreePair (B ++ c :: C)) (hc : c.free = true) :
    NoFreePair B ∧ (∀ x, B.getLast? = some x → x.free = false) ∧ NoFreePair C ∧
      ∀ x, C.head? = some x → x.free = false := by
  obtain ⟨hB, hcC, hborder⟩ := List.isChain_append.mp h
  refine ⟨hB, fun x hx => ?_, List.IsChain.of_cons hcC, fun x hx => ?_⟩
  · have hnot := hborder x hx c rfl
    rw [hc] at hnot
    simpa using hnot
  · have hnot : ¬ (c.free = true ∧ x.free = true) := NoFreePair.border (B := [c]) hcC rfl hx
    rw [hc] at hnot
    simpa using hnot

/-- A cut begins with a used tile, so anything may lie in front of it. -/
theorem noFreePair_cut_between {k n : Nat} (hB : NoFreePair B) (hC : NoFreePair C)
    (hfirst : ∀ x, C.head? = some x → x.free = false) : NoFreePair (B ++ cut k c n ++ C) := by
  have hrest : NoFreePair (cut k c n ++ C) ∧
      ∀ x, (cut k c n ++ C).head? = some x → x.free = false := by
    rw [cut]
    split
    · -- a used tile and a free rest, with a used tile behind
      refine ⟨List.isChain_cons_cons.mpr ⟨by simp, ?_⟩, by simp⟩
      refine List.isChain_append.mpr ⟨List.isChain_singleton _, hC, fun x hx y hy => ?_⟩
      rw [hfirst y hy]
      simp
    · -- one used tile
      refine ⟨List.isChain_append.mpr ⟨List.isChain_singleton _, hC, fun x hx y hy => ?_⟩, by simp⟩
      rw [hfirst y hy]
      simp
  rw [List.append_assoc]
  refine List.isChain_append.mpr ⟨hB, hrest.1, fun x _ y hy => ?_⟩
  rw [hrest.2 y hy]
  simp

/-- Cutting a free tile makes no free neighbours. -/
theorem noFreePair_cut {k n : Nat} (h : NoFreePair (B ++ c :: C)) (hc : c.free = true) :
    NoFreePair (B ++ cut k c n ++ C) := by
  obtain ⟨hB, -, hC, hfirst⟩ := h.around hc
  exact noFreePair_cut_between hB hC hfirst

/-- A free tile is cut in two, and only the second part is cut further. -/
theorem noFreePair_shift {k n : Nat} {front d : Tile} (h : NoFreePair (B ++ c :: C))
    (hc : c.free = true) : NoFreePair (B ++ [front] ++ cut k d n ++ C) := by
  obtain ⟨hB, hlast, hC, hfirst⟩ := h.around hc
  refine noFreePair_cut_between (List.isChain_append.mpr
    ⟨hB, List.isChain_singleton _, fun x hx y _ => ?_⟩) hC hfirst
  rw [hlast x hx]
  simp

/-! ## One return -/

/-- In the tiling `B'` the tile `u` is what was the tile `b` and its free neighbours in `B`; all
    other tiles are the same. -/
inductive Coalesced (b : Tile) : (B B' : List Tile) → (u : Tile) → Prop where
  | mk {pre L R post : List Tile} {u : Tile} : L.length ≤ 1 → R.length ≤ 1 →
      (∀ x ∈ L ++ R, x.free = true) → (∀ x, pre.getLast? = some x → x.free = false) →
      (∀ x, post.head? = some x → x.free = false) → Tiles u.addr u.stop (L ++ b :: R) →
      u.free = true → Coalesced b (pre ++ (L ++ b :: R) ++ post) (pre ++ u :: post) u

/-- Free tiles make one tile. -/
theorem merge_of_free (h : Tiles s e B) (hne : B ≠ []) (hfree : ∀ b ∈ B, b.free = true) :
    merge B = [⟨s, e - s, true⟩] := by
  induction B generalizing s with
  | nil => exact absurd rfl hne
  | cons b B ih =>
    obtain ⟨rfl, -, hB⟩ := h
    have hb := hfree b (by simp)
    rw [merge_cons]
    -- the last tile
    by_cases hnil : B = []
    · subst hnil
      have he : b.addr + b.size = e := hB
      rw [merge_nil, glue, ← hb, ← he, Nat.add_sub_cancel_left]
    · -- the tile and the merged rest are both free
      have hle := hB.le
      rw [ih hB hnil fun c hc => hfree c (by simp [hc]), glue, if_pos (by simp [hb])]
      simp only [List.cons.injEq, Tile.mk.injEq, true_and, and_true]
      omega

/-- Only the tile at the address is marked. -/
theorem mark_mid (hnd : ((B ++ b :: C).map Tile.addr).Nodup) :
    mark b.addr (B ++ b :: C) = B ++ { b with free := true } :: C := by
  rw [List.map_append, List.map_cons] at hnd
  obtain ⟨-, hC, hdisj⟩ := List.nodup_append.mp hnd
  have hB : mark b.addr B = B := mark_eq_self fun x hx heq =>
    hdisj _ (List.mem_map_of_mem hx) b.addr (by simp) heq
  have hC : mark b.addr C = C := mark_eq_self fun x hx heq =>
    (List.nodup_cons.mp hC).1 (heq ▸ List.mem_map_of_mem hx)
  have happ : mark b.addr (B ++ b :: C) =
      mark b.addr B ++ { b with free := true } :: mark b.addr C := by
    simp [mark]
  rw [happ, hB, hC]

/-- A coalesced tiling is the merged one. -/
theorem Coalesced.eq_merge {B' : List Tile} {u : Tile} (h : Coalesced b B B' u)
    (hpair : NoFreePair B) (hnd : (B.map Tile.addr).Nodup) : B' = merge (mark b.addr B) := by
  cases h with
  | @mk pre L R post u hL hR hfree hpre hpost htiles hu =>
    have hassoc : pre ++ (L ++ b :: R) ++ post = (pre ++ L) ++ b :: (R ++ post) := by simp
    rw [hassoc] at hnd ⊢
    rw [mark_mid hnd]
    have hassoc' : (pre ++ L) ++ { b with free := true } :: (R ++ post) =
        pre ++ ((L ++ { b with free := true } :: R) ++ post) := by simp
    -- the free tiles in the middle are put together, those around them stay
    have hfree' : ∀ x ∈ L ++ { b with free := true } :: R, x.free = true := by
      intro x hx
      simp only [List.mem_append, List.mem_cons] at hx
      rcases hx with hx | rfl | hx
      · exact hfree x (by simp [hx])
      · rfl
      · exact hfree x (by simp [hx])
    have htiles' : Tiles u.addr u.stop (L ++ { b with free := true } :: R) := by
      obtain ⟨m, h1, h2, h3, h4⟩ := tiles_append.mp htiles
      exact tiles_append.mpr ⟨m, h1, h2, h3, h4⟩
    have hmid : merge (L ++ { b with free := true } :: R) = [u] := by
      rw [merge_of_free htiles' (by simp) hfree', ← hu, Tile.stop, Nat.add_sub_cancel_left]
    rw [NoFreePair, List.isChain_append] at hpair
    rw [hassoc', merge_append, merge_append, hmid, @merge_eq_self pre,
      merge_eq_self hpair.2.1]
    · rfl
    · exact (List.isChain_append.mp hpair.1).1
    · intro x y _ hy hboth
      rw [hpost y hy] at hboth
      exact absurd hboth.2 (by decide)
    · intro x y hx _ hboth
      rw [hpre x hx] at hboth
      exact absurd hboth.1 (by decide)

/-- Giving a part back undoes a cut. -/
theorem merge_mark_cut {k n : Nat} (h : NoFreePair (B ++ c :: C)) (hc : c.free = true)
    (hn : n ≤ c.size) (hnd : ((B ++ cut k c n ++ C).map Tile.addr).Nodup) :
    merge (mark c.addr (B ++ cut k c n ++ C)) = B ++ c :: C := by
  rw [← merge_eq_self h]
  by_cases hcut : k ≤ c.size - n
  -- the rest behind the part is glued to it again
  · have hlist : B ++ cut k c n ++ C =
        B ++ ⟨c.addr, n, false⟩ :: (⟨c.addr + n, c.size - n, true⟩ :: C) := by
      rw [cut, if_pos hcut]
      simp
    rw [hlist] at hnd ⊢
    have hmark := mark_mid hnd
    simp only at hmark
    have hglue : merge (⟨c.addr, n, true⟩ :: ⟨c.addr + n, c.size - n, true⟩ :: C) =
        merge (c :: C) := by
      rw [merge_cons, merge_cons, glue_glue rfl rfl, merge_cons]
      congr 1
      rw [Nat.add_sub_cancel' hn, ← hc]
    rw [hmark, merge, merge, List.foldr_append, List.foldr_append]
    exact congrArg (B.foldr glue) hglue
  -- nothing was cut off, so marking is enough
  · have hlist : B ++ cut k c n ++ C = B ++ ⟨c.addr, c.size, false⟩ :: C := by
      rw [cut, if_neg hcut]
      simp
    rw [hlist] at hnd ⊢
    have hmark := mark_mid hnd
    simp only at hmark
    rw [hmark, ← hc]

/-- The coalesced tile is one of the tiling and covers the tile that is given back. -/
theorem Coalesced.covers {B' : List Tile} {u : Tile} (h : Coalesced b B B' u) :
    u ∈ B' ∧ u.addr ≤ b.addr ∧ 0 < b.size ∧ b.stop ≤ u.stop := by
  cases h with
  | @mk pre L R post u hL hR hfree hpre hpost htiles hu =>
    exact ⟨by simp, htiles.bounds (by simp : b ∈ L ++ b :: R)⟩

/-- The tile that is left is free. -/
theorem Coalesced.union_free {B' : List Tile} {u : Tile} (h : Coalesced b B B' u) :
    u.free = true := by
  cases h with
  | mk _ _ _ _ _ _ hu => exact hu

/-- The union and the other tiles cover the same interval. -/
theorem Coalesced.tiles {B' : List Tile} {u : Tile} (h : Coalesced b B B' u) (ht : Tiles s e B) :
    Tiles s e B' := by
  have hcovers := h.covers
  cases h with
  | @mk pre L R post u hL hR hfree hpre hpost htiles hu =>
    obtain ⟨m, hstart, hback⟩ := tiles_append.mp ht
    obtain ⟨k, hfront, hmid⟩ := tiles_append.mp hstart
    obtain rfl : k = u.addr := by
      cases L with
      | nil => exact hmid.1.symm.trans htiles.1
      | cons l L => exact hmid.1.symm.trans htiles.1
    obtain rfl : m = u.stop := hmid.end_unique htiles
    refine Tiles.join hfront ?_ hback
    simp only [Tile.stop] at hcovers
    omega

/-- There is one way to put a tile and its free neighbours together. -/
theorem Coalesced.unique {B₁ B₂ : List Tile} {u₁ u₂ : Tile} (h₁ : Coalesced b B B₁ u₁)
    (h₂ : Coalesced b B B₂ u₂) (hpair : NoFreePair B) (ht : Tiles s e B) : u₁ = u₂ := by
  have heq : B₁ = B₂ := by
    rw [h₁.eq_merge hpair ht.nodup_addr, h₂.eq_merge hpair ht.nodup_addr]
  obtain ⟨hmem₁, hle₁, hpos, hstop₁⟩ := h₁.covers
  obtain ⟨hmem₂, hle₂, -, hstop₂⟩ := h₂.covers
  rw [← heq] at hmem₂
  by_contra hne
  have hapart := (h₁.tiles ht).apart hmem₁ hmem₂ hne
  have hb : b.stop = b.addr + b.size := rfl
  omega

/-- The tile starts the union, or a whole tile behind its start. -/
theorem Coalesced.addr_cases {B' : List Tile} {u : Tile} {n : Nat} (h : Coalesced b B B' u)
    (hsize : ∀ x ∈ B, n ≤ x.size) : u.addr = b.addr ∨ u.addr + n ≤ b.addr := by
  cases h with
  | @mk pre L R post u hL hR hfree hpre hpost htiles hu =>
    match L, hL with
    | [], _ => exact Or.inl htiles.1.symm
    | [l], _ =>
      have hl := hsize l (by simp)
      obtain ⟨-, -, hb, -⟩ := htiles
      exact Or.inr (by omega)

/-- The used tiles that are left. -/
theorem Coalesced.mem_iff {B' : List Tile} {u x : Tile} (h : Coalesced b B B' u)
    (hx : x.free = false) (hne : x ≠ b) : x ∈ B' ↔ x ∈ B := by
  cases h with
  | @mk pre L R post u hL hR hfree hpre hpost htiles hu =>
    have hu' : x ≠ u := by
      rintro rfl
      rw [hx] at hu
      exact absurd hu (by decide)
    have hfree' : ∀ y, y ∈ L ++ R → x ≠ y := by
      rintro y hy rfl
      have := hfree x hy
      rw [hx] at this
      exact absurd this (by decide)
    have hxL : x ∉ L := fun hmem => hfree' x (by simp [hmem]) rfl
    have hxR : x ∉ R := fun hmem => hfree' x (by simp [hmem]) rfl
    simp only [List.mem_append, List.mem_cons, hu', hne, hxL, hxR, false_or, or_false]

/-- The tile that is given back is not there any more. -/
theorem Coalesced.mem_used_iff {B' : List Tile} {u x : Tile} (h : Coalesced b B B' u)
    (ht : Tiles s e B) (hx : x.free = false) : x ∈ B' ↔ x ∈ B ∧ x ≠ b := by
  have hne : x ∈ B' → x ≠ b := by
    rintro hmem rfl
    obtain ⟨hu, hle, hpos, hstop⟩ := h.covers
    have hxu : x ≠ u := by
      rintro rfl
      rw [h.union_free] at hx
      exact absurd hx (by decide)
    have hapart := (h.tiles ht).apart hmem hu hxu
    have hend : x.stop = x.addr + x.size := rfl
    omega
  constructor
  · intro hmem
    exact ⟨(h.mem_iff hx (hne hmem)).mp hmem, hne hmem⟩
  · rintro ⟨hmem, hxb⟩
    exact (h.mem_iff hx hxb).mpr hmem

/-- A free tile at the end is none of the used ones. -/
theorem mem_concat_used {x : Tile} (hx : x.free = false) (hc : c.free = true) :
    x ∈ B ++ [c] ↔ x ∈ B := by
  have hne : x ≠ c := by
    rintro rfl
    rw [hx] at hc
    exact absurd hc (by decide)
  simp only [List.mem_append, List.mem_singleton, hne, or_false]

/-- The other tiles are not the one in the middle. -/
theorem Tiles.ne_mid (h : Tiles s e (B ++ b :: C)) {x : Tile} (hx : x ∈ B ++ C) : x ≠ b := by
  rintro rfl
  obtain ⟨hB, hpos, hC⟩ := h.split
  rcases List.mem_append.mp hx with hx | hx
  · have := (hB.bounds hx).2
    simp only [Tile.stop] at this
    omega
  · have := (hC.bounds hx).1
    simp only [Tile.stop] at this
    omega

/-- Free tiles use nothing. -/
theorem usedSize_of_free (h : ∀ b ∈ B, b.free = true) : usedSize B = 0 := by
  induction B with
  | nil => rfl
  | cons b B ih =>
    rw [usedSize_cons, h b (by simp), if_pos rfl, ih fun c hc => h c (by simp [hc])]

/-- The used bytes that are left. -/
theorem Coalesced.usedSize_eq {B' : List Tile} {u : Tile} (h : Coalesced b B B' u)
    (hb : b.free = false) : usedSize B = usedSize B' + b.size := by
  cases h with
  | @mk pre L R post u hL hR hfree hpre hpost htiles hu =>
    have hL := usedSize_of_free fun x hx => hfree x (List.mem_append_left R hx)
    have hR := usedSize_of_free fun x hx => hfree x (List.mem_append_right L hx)
    simp only [usedSize_append, usedSize_cons, hb, hu, hL, hR, Bool.false_eq_true, if_false, if_true]
    omega

end Tiling
