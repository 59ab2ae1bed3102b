import Toutatis.Console.Vsprintf

/-!
# The rendering of a format

Formats as lists of characters and directives, what they are to render, and when `vsprintf`
stores just that. The digits of a width or of a precision are copied to `tmp` without a look
at its size; otherwise the steps of `loc` always come out right.

## Key results

- `vsprintfPass_spec`: one pass over a character or a directive
- `format_rendered_iff`: the formats that are rendered
- `format_overruns`: one that is not
-/

namespace Toutatis

open ByteMem

/-! ## Formats -/

/-- A width or a precision. -/
inductive FieldSize where
  | absent
  | digits (ds : List UInt8)
  | star

/-- `%[flags][width][.precision]conv` -/
structure Directive where
  flags : List UInt8
  width : FieldSize
  precision : Option FieldSize
  letter : UInt8

/-- A part of a format. -/
inductive Piece where
  | char (c : UInt8)
  | dir (d : Directive)

def FieldSize.text : FieldSize → List UInt8
  | .absent => []
  | .digits ds => ds
  | .star => [42]

/-- The precision with its point. -/
def Directive.point (d : Directive) : List UInt8 :=
  match d.precision with
  | none => []
  | some p => 46 :: p.text

def Directive.text (d : Directive) : List UInt8 :=
  37 :: (d.flags ++ (d.width.text ++ (d.point ++ [d.letter])))

def Piece.text : Piece → List UInt8
  | .char c => [c]
  | .dir d => d.text

/-- The bytes of a format, without the terminator. -/
def formatText (ps : List Piece) : List UInt8 := ps.flatMap Piece.text

/-- A field size is written with digits. -/
def FieldSize.Ok : FieldSize → Prop
  | .digits ds => ds ≠ [] ∧ ∀ c ∈ ds, isDigit c = true
  | _ => True

/-- A leading `0` of a width is a flag. -/
structure Directive.Ok (d : Directive) : Prop where
  flags : ∀ c ∈ d.flags, c ∈ [35, 48, 45, 43, 32]
  width : d.width.Ok
  first : d.width.text.head? ≠ some 48
  precision : ∀ p, d.precision = some p → p.Ok
  letter : d.letter ∈ [99, 115, 100, 105, 117, 111, 88, 120, 98]

def Piece.Ok : Piece → Prop
  | .char c => c ≠ 0 ∧ c ≠ 37
  | .dir d => d.Ok

/-- The digits fit into `tmp`, with a terminator. -/
def FieldSize.Short : FieldSize → Prop
  | .digits ds => ds.length < 1024
  | _ => True

def Piece.Short : Piece → Prop
  | .char _ => True
  | .dir d => d.width.Short ∧ ∀ p, d.precision = some p → p.Short

/-! ## Renderings -/

/-- A width, the place of the next argument and the flags: a negative width from the arguments
    stands for `LEFT`. -/
def FieldSize.asWidth (args : Nat → BitVec 32) (pos : Nat) (flags : Flags) :
    FieldSize → Int × Nat × Flags
  | .absent => (-1, pos, flags)
  | .digits ds => (atoi ds, pos, flags)
  | .star =>
    if (args pos).toInt < 0 then (-(args pos).toInt, pos + 1, { flags with left := true })
    else ((args pos).toInt, pos + 1, flags)

/-- A precision and the place of the next argument: behind a point a negative one stands for
    `0`. -/
def asPrecision (args : Nat → BitVec 32) (pos : Nat) : Option FieldSize → Int × Nat
  | none => (-1, pos)
  | some .absent => (0, pos)
  | some (.digits ds) => (if atoi ds < 0 then 0 else atoi ds, pos)
  | some .star => (if (args pos).toInt < 0 then 0 else (args pos).toInt, pos + 1)

/-- The flags in front of the width. -/
def Directive.flagSet (d : Directive) : Flags :=
  d.flags.foldl (fun f c => (applyFlag f c).getD f) noFlags

/-- Flags, width, precision and the place of the argument. -/
def Directive.fields (args : Nat → BitVec 32) (pos : Nat) (d : Directive) :
    Flags × Int × Int × Nat :=
  let (width, pos, flags) := d.width.asWidth args pos d.flagSet
  let (precision, pos) := asPrecision args pos d.precision
  (flags, width, precision, pos)

/-- What a conversion renders: the character, the whole string, or the output of `number`. -/
def Conv.render (m : Mem) (val : Nat) (flags : Flags) (width precision : Int) :
    Conv → List UInt8
  | .c => [UInt8.ofNat val]
  | .s => strncpy m val 1024
  | .d => (number val 10 width precision { flags with signed := true }).1
  | .u => (number val 10 width precision flags).1
  | .o => (number val 8 width precision flags).1
  | .X => (number val 16 width precision { flags with large := true }).1
  | .x => (number val 16 width precision flags).1
  | .b => (number val 2 width precision flags).1

/-- The rendering of a directive and the place of the next argument. -/
def Directive.render (m : Mem) (args : Nat → BitVec 32) (pos : Nat) (d : Directive) :
    List UInt8 × Nat :=
  let (flags, width, precision, pos) := d.fields args pos
  (((convOf d.letter).map (Conv.render m (args pos).toNat flags width precision)).getD [], pos + 1)

def Piece.render (m : Mem) (args : Nat → BitVec 32) (pos : Nat) : Piece → List UInt8 × Nat
  | .char c => ([c], pos)
  | .dir d => d.render m args pos

/-- The rendering of a format. -/
def render (m : Mem) (args : Nat → BitVec 32) : (pos : Nat) → List Piece → List UInt8
  | _, [] => []
  | pos, p :: ps => (p.render m args pos).1 ++ render m args (p.render m args pos).2 ps

/-- The arguments of `%s` are shorter than `tmp`. -/
def StringsFit (m : Mem) (args : Nat → BitVec 32) : (pos : Nat) → List Piece → Prop
  | _, [] => True
  | pos, p :: ps =>
    (match p with
      | .char _ => True
      | .dir d => convOf d.letter = some .s →
          (strncpy m (args (d.fields args pos).2.2.2).toNat 1024).length < 1024) ∧
      StringsFit m args (p.render m args pos).2 ps

/-- `k` passes of the loop of `vsprintf`, each after its test. -/
def vsprintfRun (m : Mem) (fmt : Nat) (args : Nat → BitVec 32) : (k : Nat) → Printer →
    Option Printer
  | 0, s => some s
  | k + 1, s =>
    (strlen m fmt).bind fun len =>
      let s := { s with far := max s.far len }
      if s.i ≤ len then (vsprintfPass m fmt args s).bind (vsprintfRun m fmt args k) else none

/-! ## Parsing -/

section

variable {m : Mem} {fmt i : Nat} {args : Nat → BitVec 32} {c : UInt8} {rest : List UInt8}

/-- The five flags are known. -/
theorem applyFlag_isSome (f : Flags) (hc : c ∈ [35, 48, 45, 43, 32]) :
    ∃ f', applyFlag f c = some f' := by
  simp only [List.mem_cons, List.not_mem_nil, or_false] at hc
  rcases hc with rfl | rfl | rfl | rfl | rfl <;> exact ⟨_, rfl⟩

/-- Nothing else is a flag. -/
theorem applyFlag_eq_none (f : Flags) (hc : c ∉ [35, 48, 45, 43, 32]) : applyFlag f c = none := by
  simp only [List.mem_cons, List.not_mem_nil, or_false, not_or] at hc
  rw [applyFlag, if_neg hc.1, if_neg hc.2.1, if_neg hc.2.2.1, if_neg hc.2.2.2.1, if_neg hc.2.2.2.2]

/-- The loop over the flags stops in front of the first other byte. -/
theorem flagLoop_spec {fs : List UInt8} {fuel : Nat} (f : Flags)
    (hfs : ∀ c ∈ fs, c ∈ [35, 48, 45, 43, 32]) (hc : c ∉ [35, 48, 45, 43, 32])
    (h : Holds m (fmt + (i + 1)) (fs ++ c :: rest)) (hfuel : fs.length < fuel) :
    flagLoop m fmt fuel i f =
      some (i + fs.length, fs.foldl (fun f c => (applyFlag f c).getD f) f) := by
  induction fs generalizing fuel i f with
  | nil =>
    obtain ⟨fuel, rfl⟩ : ∃ n, fuel = n + 1 := ⟨fuel - 1, by simp at hfuel; omega⟩
    rw [flagLoop, h.head, applyFlag_eq_none f hc]
    rfl
  | cons b fs ih =>
    rw [List.length_cons] at hfuel ⊢
    obtain ⟨fuel, rfl⟩ : ∃ n, fuel = n + 1 := ⟨fuel - 1, by omega⟩
    obtain ⟨f', hf'⟩ := applyFlag_isSome f (hfs b (by simp))
    have hb : m (fmt + (i + 1)) = b := Holds.head h
    have htail := Holds.tail h
    rw [Nat.add_assoc fmt] at htail
    rw [flagLoop, hb, hf', List.foldl_cons, hf', Option.getD_some]
    simp only
    rw [ih f' (fun c hc => hfs c (by simp [hc])) htail (by omega), Nat.add_assoc, Nat.add_comm 1]

/-- The loop over digits stops in front of the first other byte. -/
theorem digitRun_spec {ds : List UInt8} {fuel : Nat} (hds : ∀ c ∈ ds, isDigit c = true)
    (hc : isDigit c = false) (h : Holds m (fmt + (i + 1)) (ds ++ c :: rest))
    (hfuel : ds.length < fuel) : digitRun m fmt fuel i = some (i + ds.length, ds) := by
  induction ds generalizing fuel i with
  | nil =>
    obtain ⟨fuel, rfl⟩ : ∃ n, fuel = n + 1 := ⟨fuel - 1, by simp at hfuel; omega⟩
    rw [digitRun, h.head, if_neg (by rw [hc]; decide)]
    rfl
  | cons b ds ih =>
    rw [List.length_cons] at hfuel ⊢
    obtain ⟨fuel, rfl⟩ : ∃ n, fuel = n + 1 := ⟨fuel - 1, by omega⟩
    have hb : m (fmt + (i + 1)) = b := Holds.head h
    have htail := Holds.tail h
    rw [Nat.add_assoc fmt] at htail
    rw [digitRun, hb, if_pos (hds b (by simp)),
      ih (fun c hc => hds c (by simp [hc])) htail (by omega), Option.map_some, Nat.add_assoc,
      Nat.add_comm 1]

/-- A row of fewer than 1024 digits is its number; a longer one overruns the buffer. -/
theorem getNumber_spec {ds : List UInt8} (hds : ∀ c ∈ ds, isDigit c = true)
    (hc : isDigit c = false) (h : Holds m (fmt + (i + 1)) (ds ++ c :: rest))
    (hlen : ds.length < 2 ^ 32) :
    getNumber m fmt i = if ds.length < 1024 then some (i + ds.length, atoi ds) else none := by
  rw [getNumber, digitRun_spec hds hc h hlen, Option.bind_some]

/-- The first byte of a number. -/
theorem FieldSize.Ok.first_digit {ds : List UInt8} {l : List UInt8} {a : Nat}
    (hw : FieldSize.Ok (.digits ds)) (h : Holds m a (ds ++ l)) : isDigit (m a) = true := by
  obtain ⟨b, ds, rfl⟩ := List.exists_cons_of_ne_nil hw.1
  rw [Holds.head h]
  exact hw.2 b (by simp)

/-- `get_width` reads digits, a `*` or nothing. -/
theorem getWidth_spec (args : Nat → BitVec 32) {w : FieldSize} (hw : w.Ok) (consumed : Nat)
    (flags : Flags) (hdigit : isDigit c = false) (hstar : c ≠ 42)
    (h : Holds m (fmt + (i + 1)) (w.text ++ c :: rest)) (hlen : w.text.length < 2 ^ 32) :
    (w.Short → getWidth m fmt args i consumed flags =
      some (i + w.text.length, w.asWidth args consumed flags)) ∧
    (¬ w.Short → getWidth m fmt args i consumed flags = none) := by
  cases w with
  | absent =>
    have hm : m (fmt + (i + 1)) = c := Holds.head h
    refine ⟨fun _ => ?_, fun hs => absurd trivial hs⟩
    rw [getWidth, hm, if_neg (by rw [hdigit]; decide), if_neg hstar]
    rfl
  | digits ds =>
    -- the digits go to tmp, which has room for fewer than 1024
    have hnum : getNumber m fmt i = _ := getNumber_spec hw.2 hdigit h hlen
    rw [getWidth, if_pos (hw.first_digit h), hnum]
    refine ⟨fun hs : ds.length < 1024 => ?_, fun hs : ¬ ds.length < 1024 => ?_⟩
    · rw [if_pos hs]
      rfl
    · rw [if_neg hs]
      rfl
  | star =>
    have hm : m (fmt + (i + 1)) = 42 := Holds.head h
    refine ⟨fun _ => ?_, fun hs => absurd trivial hs⟩
    rw [getWidth, hm, if_neg (by decide), if_pos rfl]
    simp only [FieldSize.asWidth]
    split <;> rfl

/-- `get_precision` reads a point with digits, with a `*` or with nothing, or no point. -/
theorem getPrecision_spec (args : Nat → BitVec 32) {d : Directive}
    (hp : ∀ p, d.precision = some p → p.Ok) (consumed : Nat)
    (hdot : c ≠ 46) (hdigit : isDigit c = false) (hstar : c ≠ 42)
    (h : Holds m (fmt + (i + 1)) (d.point ++ c :: rest)) (hlen : d.point.length < 2 ^ 32) :
    ((∀ p, d.precision = some p → p.Short) → getPrecision m fmt args i consumed =
      some (i + d.point.length, asPrecision args consumed d.precision)) ∧
    ((∃ p, d.precision = some p ∧ ¬ p.Short) → getPrecision m fmt args i consumed = none) := by
  rw [Directive.point] at h hlen ⊢
  cases hprec : d.precision with
  | none =>
    rw [hprec] at h
    have hm : m (fmt + (i + 1)) = c := Holds.head h
    refine ⟨fun _ => ?_, by simp⟩
    rw [getPrecision, hm, if_neg hdot]
    rfl
  | some p =>
    rw [hprec] at h hlen
    have hp := hp p hprec
    have hm : m (fmt + (i + 1)) = 46 := Holds.head h
    -- behind the point it is read like a width
    have htail : Holds m (fmt + (i + 1 + 1)) (p.text ++ c :: rest) := Holds.tail h
    rw [getPrecision, if_pos hm]
    simp only
    cases p with
    | absent =>
      have hm' : m (fmt + (i + 1 + 1)) = c := Holds.head htail
      refine ⟨fun _ => ?_, by simp [FieldSize.Short]⟩
      rw [hm', if_neg (by rw [hdigit]; decide), if_neg hstar]
      rfl
    | digits ds =>
      have hnum : getNumber m fmt (i + 1) = _ :=
        getNumber_spec hp.2 hdigit htail (by
          simp only [FieldSize.text, List.length_cons] at hlen
          omega)
      rw [if_pos (hp.first_digit htail), hnum]
      refine ⟨fun hs => ?_, fun hs => ?_⟩
      · rw [if_pos (show ds.length < 1024 from hs _ rfl)]
        simp only [Option.map_some, asPrecision, FieldSize.text, List.length_cons]
        rw [Nat.add_assoc, Nat.add_comm 1]
      · obtain ⟨p, hp, hs⟩ := hs
        obtain rfl := Option.some.inj hp
        rw [if_neg (show ¬ ds.length < 1024 from hs)]
        rfl
    | star =>
      have hm' : m (fmt + (i + 1 + 1)) = 42 := Holds.head htail
      refine ⟨fun _ => ?_, by simp [FieldSize.Short]⟩
      rw [hm', if_neg (by decide), if_pos rfl]
      rfl

/-- What the letter of a conversion is not. -/
theorem letter_spec (h : c ∈ [99, 115, 100, 105, 117, 111, 88, 120, 98]) :
    c ∉ [35, 48, 45, 43, 32] ∧ isDigit c = false ∧ c ≠ 42 ∧ c ≠ 46 ∧ c ≠ 0 ∧
      ∃ conv, convOf c = some conv := by
  simp only [List.mem_cons, List.not_mem_nil, or_false] at h
  rcases h with rfl | rfl | rfl | rfl | rfl | rfl | rfl | rfl | rfl <;>
    exact ⟨by decide, by decide, by decide, by decide, by decide, _, rfl⟩

/-- What stands behind the flags is no flag. -/
theorem Directive.Ok.behind_flags {d : Directive} (hd : d.Ok) :
    ∃ b l, d.width.text ++ (d.point ++ [d.letter]) = b :: l ∧ b ∉ [35, 48, 45, 43, 32] := by
  have hfirst := hd.first
  have hwidth := hd.width
  cases hw : d.width with
  | digits ds =>
    rw [hw] at hfirst hwidth
    obtain ⟨b, ds, rfl⟩ := List.exists_cons_of_ne_nil hwidth.1
    -- of the flags only 0 is a digit, and a width does not start with it
    refine ⟨b, _, rfl, fun hmem => ?_⟩
    have hdigit := hwidth.2 b (by simp)
    simp only [List.mem_cons, List.not_mem_nil, or_false] at hmem
    rcases hmem with rfl | rfl | rfl | rfl | rfl
    · exact absurd hdigit (by decide)
    · exact hfirst rfl
    · exact absurd hdigit (by decide)
    · exact absurd hdigit (by decide)
    · exact absurd hdigit (by decide)
  | star => exact ⟨42, _, rfl, by decide⟩
  | absent =>
    rw [Directive.point]
    cases d.precision with
    | none => exact ⟨d.letter, [], rfl, (letter_spec hd.letter).1⟩
    | some p => exact ⟨46, _, rfl, by decide⟩

/-- What stands behind the width is no part of it. -/
theorem Directive.Ok.behind_width {d : Directive} (hd : d.Ok) :
    ∃ b l, d.point ++ [d.letter] = b :: l ∧ isDigit b = false ∧ b ≠ 42 := by
  rw [Directive.point]
  cases d.precision with
  | none =>
    obtain ⟨-, hdigit, hstar, -⟩ := letter_spec hd.letter
    exact ⟨d.letter, [], rfl, hdigit, hstar⟩
  | some p => exact ⟨46, _, rfl, by decide, by decide⟩

/-- What `case '%'` has parsed in front of the conversion: the index, the flags, the width, the
    precision and the place of the argument. -/
def parseFields (m : Mem) (fmt : Nat) (args : Nat → BitVec 32) (s : Printer) :
    Option (Nat × Flags × Int × Int × Nat) :=
  (flagLoop m fmt (2 ^ 32) s.i noFlags).bind fun (i, flags) =>
    (getWidth m fmt args i s.consumed flags).bind fun (i, width, consumed, flags) =>
      (getPrecision m fmt args i consumed).map fun (i, precision, consumed) =>
        (i, flags, width, precision, consumed)

/-- `case '%'` parses the fields, and converts with them. -/
theorem directive_eq (m : Mem) (fmt : Nat) (args : Nat → BitVec 32) (s : Printer) :
    directive m fmt args s = (parseFields m fmt args s).bind
      fun (i, flags, width, precision, consumed) =>
        convert m fmt args { s with i := i, consumed := consumed, far := max s.far (i + 2) } flags
          width precision := by
  rw [directive, parseFields, Option.bind_assoc]
  congr 1
  funext r
  obtain ⟨i, flags⟩ := r
  simp only
  rw [Option.bind_assoc]
  congr 1
  funext r
  obtain ⟨i', width, consumed, flags'⟩ := r
  simp only
  rw [Option.bind_map]
  rfl

/-- The fields are parsed as they are written; digits that do not fit into `tmp` are stored all
    the same. -/
theorem parseFields_spec {d : Directive} (hd : d.Ok) {s : Printer}
    (h : Holds m (fmt + s.i) d.text) (hlen : d.text.length < 2 ^ 32) :
    (Piece.Short (.dir d) → parseFields m fmt args s =
      some (s.i + d.flags.length + d.width.text.length + d.point.length,
        d.fields args s.consumed)) ∧
    (¬ Piece.Short (.dir d) → parseFields m fmt args s = none) := by
  simp only [Directive.text, List.length_cons, List.length_append, List.length_nil] at hlen
  -- each field ends where a character follows that it does not take
  have hflagsAt := Holds.tail h
  obtain ⟨b, l, hb, hflag⟩ := hd.behind_flags
  have hflags : flagLoop m fmt (2 ^ 32) s.i noFlags = some (s.i + d.flags.length, d.flagSet) := by
    rw [hb] at hflagsAt
    exact flagLoop_spec noFlags hd.flags hflag hflagsAt (by omega)
  have hwidthAt := (holds_append.mp hflagsAt).2
  rw [show fmt + s.i + 1 + d.flags.length = fmt + (s.i + d.flags.length + 1) by omega] at hwidthAt
  obtain ⟨b, l, hb, hdigit, hstar⟩ := hd.behind_width
  have hwidth := getWidth_spec args hd.width s.consumed d.flagSet hdigit hstar
    (hb ▸ hwidthAt) (by omega)
  have hpointAt := (holds_append.mp hwidthAt).2
  rw [show fmt + (s.i + d.flags.length + 1) + d.width.text.length =
    fmt + (s.i + d.flags.length + d.width.text.length + 1) by omega] at hpointAt
  obtain ⟨-, hldigit, hlstar, hldot, -⟩ := letter_spec hd.letter
  have hpoint := getPrecision_spec args hd.precision
    (d.width.asWidth args s.consumed d.flagSet).2.1 hldot hldigit hlstar hpointAt (by omega)
  rw [parseFields, hflags, Option.bind_some]
  simp only
  by_cases hw : d.width.Short
  · rw [hwidth.1 hw, Option.bind_some]
    simp only
    refine ⟨fun hs => ?_, fun hs => ?_⟩
    · rw [hpoint.1 hs.2, Option.map_some]
      rfl
    · have hlong : ∃ p, d.precision = some p ∧ ¬ p.Short := by
        by_contra hno
        refine hs ⟨hw, fun p hp => ?_⟩
        by_contra hlong
        exact hno ⟨p, hp, hlong⟩
      rw [hpoint.2 hlong]
      rfl
  · refine ⟨fun hs => absurd hs.1 hw, fun _ => ?_⟩
    rw [hwidth.2 hw]
    rfl

/-- **A directive** is converted with the fields that are written in it. -/
theorem directive_spec {d : Directive} (hd : d.Ok) {s : Printer}
    (h : Holds m (fmt + s.i) d.text) (hlen : d.text.length < 2 ^ 32) :
    (Piece.Short (.dir d) → directive m fmt args s =
      convert m fmt args
        { s with
          i := s.i + d.flags.length + d.width.text.length + d.point.length
          consumed := (d.fields args s.consumed).2.2.2
          far := max s.far (s.i + d.flags.length + d.width.text.length + d.point.length + 2) }
        (d.fields args s.consumed).1 (d.fields args s.consumed).2.1
        (d.fields args s.consumed).2.2.1) ∧
    (¬ Piece.Short (.dir d) → directive m fmt args s = none) := by
  have hfields := @parseFields_spec m fmt args d hd s h hlen
  rw [directive_eq]
  constructor
  · intro hs
    rw [hfields.1 hs, Option.bind_some]
  · intro hs
    rw [hfields.2 hs]
    rfl

end

/-! ## Storing -/

/-- Stores that do not wrap around. -/
theorem storeAll_apply {out : Nat → Option UInt8} {loc : Nat} {str : List UInt8}
    (h : loc + str.length ≤ 2 ^ 32) :
    (∀ k, k < loc ∨ loc + str.length ≤ k → storeAll out loc str k = out k) ∧
      ∀ k x, str[k]? = some x → storeAll out loc str (loc + k) = some x := by
  induction str generalizing out loc with
  | nil => exact ⟨fun _ _ => rfl, fun k x hk => by simp at hk⟩
  | cons c str ih =>
    rw [List.length_cons] at h
    rw [storeAll]
    by_cases hnil : str = []
    · -- the last byte: the index behind it may wrap, and is not used
      subst hnil
      refine ⟨fun k hk => ?_, fun k x hk => ?_⟩
      · rw [storeAll, Function.update_of_ne (by simp at hk; omega)]
      · cases k with
        | zero =>
          rw [storeAll, Nat.add_zero, Function.update_self]
          simpa using hk
        | succ k => simp at hk
    · have hlen : 0 < str.length := List.length_pos_iff.mpr hnil
      rw [add32_of_lt (by omega)]
      obtain ⟨hoff, hat⟩ := @ih (Function.update out loc (some c)) (loc + 1) (by omega)
      refine ⟨fun k hk => ?_, fun k x hk => ?_⟩
      · rw [List.length_cons] at hk
        rw [hoff k (by omega), Function.update_of_ne (by omega)]
      · cases k with
        | zero =>
          rw [hoff _ (by omega), Nat.add_zero, Function.update_self]
          simpa using hk
        | succ k =>
          rw [← hat k x hk]
          exact congrArg _ (by omega)

/-- `number` returns the number of characters without the terminator. -/
theorem number_snd {num base : Nat} {width precision : Int} {flags : Flags} (h2 : 2 ≤ base)
    (h36 : base ≤ 36) : (number num base width precision flags).2 =
      sub32 (number num base width precision flags).1.length 1 := by
  rw [number]
  simp only
  rw [if_neg (by omega)]

/-- A number or a character leaves `loc` at its last byte. -/
private theorem loc_step {loc len : Nat} (h : loc + len < 2 ^ 32) :
    add32 (add32 loc (sub32 len 1)) 1 = loc + len := by
  simp only [add32, sub32]
  omega

/-- What a conversion stores, and where it leaves `loc` for `++loc`. -/
theorem Conv.output_spec {m : Mem} {val : Nat} (flags : Flags) (width precision : Int)
    (conv : Conv) (hs : conv = .s → (strncpy m val 1024).length < 1024) :
    ∃ str n, conv.output m val flags width precision = some (str, n) ∧
      conv.render m val flags width precision <+: str ∧
      str.length ≤ (conv.render m val flags width precision).length + 1 ∧
      ∀ loc, loc + (conv.render m val flags width precision).length < 2 ^ 32 →
        add32 (add32 loc n) 1 = loc + (conv.render m val flags width precision).length := by
  -- all conversions but c and s end in number, which leaves loc at the last character
  have hnumber : ∀ base flags, 2 ≤ base → base ≤ 36 → ∃ str n,
      some (number val base width precision flags) = some (str, n) ∧
      (number val base width precision flags).1 <+: str ∧
      str.length ≤ (number val base width precision flags).1.length + 1 ∧
      ∀ loc, loc + (number val base width precision flags).1.length < 2 ^ 32 →
        add32 (add32 loc n) 1 = loc + (number val base width precision flags).1.length := by
    intro base flags h2 h36
    have hsnd := @number_snd val base width precision flags h2 h36
    generalize number val base width precision flags = r at hsnd ⊢
    obtain ⟨str, n⟩ := r
    simp only at hsnd ⊢
    refine ⟨str, n, rfl, List.prefix_rfl, Nat.le_succ _, fun loc hloc => ?_⟩
    rw [hsnd]
    exact loc_step hloc
  cases conv with
  | c =>
    refine ⟨_, _, rfl, List.prefix_rfl, Nat.le_succ _, fun loc hloc => ?_⟩
    simp only [Conv.render, List.length_singleton, add32] at hloc ⊢
    omega
  | s =>
    refine ⟨_, _, if_pos (hs rfl), List.prefix_append _ _, ?_, fun loc hloc => ?_⟩
    · rw [List.length_append]
      exact le_refl _
    · simp only [Conv.render, add32, sub32] at hloc ⊢
      omega
  | d => exact hnumber 10 _ (by decide) (by decide)
  | u => exact hnumber 10 _ (by decide) (by decide)
  | o => exact hnumber 8 _ (by decide) (by decide)
  | X => exact hnumber 16 _ (by decide) (by decide)
  | x => exact hnumber 16 _ (by decide) (by decide)
  | b => exact hnumber 2 _ (by decide) (by decide)

/-- What a pass leaves: the piece is taken, and its rendering `str` stands in the buffer. -/
structure Passed (s s' : Printer) (len : Nat) (str : List UInt8) (pos : Nat) : Prop where
  i : s'.i = s.i + len
  loc : s'.loc = s.loc + str.length
  consumed : s'.consumed = pos
  below : ∀ k < s.loc, s'.out k = s.out k
  shown : ∀ k x, str[k]? = some x → s'.out (s.loc + k) = some x
  stored : s.stored + str.length ≤ s'.stored

section

variable {m : Mem} {fmt : Nat} {args : Nat → BitVec 32} {s : Printer}

/-- A pass over a character, or over the terminator. -/
theorem vsprintfPass_char (args : Nat → BitVec 32) {c : UInt8} (hm : m (fmt + s.i) = c) (hc : c ≠ 37)
    (hloc : s.loc + 1 < 2 ^ 32) :
    ∃ s', vsprintfPass m fmt args s = some s' ∧ Passed s s' 1 [c] s.consumed := by
  obtain ⟨hoff, hat⟩ := @storeAll_apply s.out s.loc [c]
    (by rw [List.length_singleton]; omega)
  refine ⟨{ s with
    i := s.i + 1
    loc := add32 s.loc 1
    out := storeAll s.out s.loc [c]
    far := max s.far (s.i + 1)
    stored := s.stored + 1 }, ?_, ⟨rfl, add32_of_lt hloc, rfl, fun k hk => hoff k (Or.inl hk), hat,
      le_refl _⟩⟩
  rw [vsprintfPass]
  simp only [hm, if_neg hc, Option.map_some]

/-- **A pass over a piece.** -/
theorem vsprintfPass_spec {p : Piece} (hp : p.Ok) (h : Holds m (fmt + s.i) p.text)
    (hlen : p.text.length < 2 ^ 32) (hstr : StringsFit m args s.consumed [p])
    (hloc : s.loc + (p.render m args s.consumed).1.length + 1 < 2 ^ 32) :
    (p.Short → ∃ s', vsprintfPass m fmt args s = some s' ∧
      Passed s s' p.text.length (p.render m args s.consumed).1 (p.render m args s.consumed).2) ∧
    (¬ p.Short → vsprintfPass m fmt args s = none) := by
  cases p with
  | char c =>
    refine ⟨fun _ => vsprintfPass_char args (Holds.head h) hp.2 ?_, fun hs => absurd trivial hs⟩
    simp only [Piece.render, List.length_singleton] at hloc
    omega
  | dir d =>
    have hpercent : m (fmt + s.i) = 37 := Holds.head h
    have hspec := @directive_spec m fmt args d hp
      { s with far := max s.far (s.i + 1) } h hlen
    rw [vsprintfPass]
    simp only [hpercent, if_pos]
    refine ⟨fun hs => ?_, fun hs => by rw [hspec.2 hs]; rfl⟩
    rw [hspec.1 hs]
    obtain ⟨-, -, -, -, -, conv, hconv⟩ := letter_spec hp.letter
    -- the letter stands behind the precision
    have hletter : m (fmt + (s.i + d.flags.length + d.width.text.length + d.point.length + 1)) =
        d.letter := by
      have hall : Holds m (fmt + s.i)
          ((37 :: (d.flags ++ (d.width.text ++ d.point))) ++ [d.letter]) := by
        simpa [Piece.text, Directive.text] using h
      have hlast := (holds_append.mp hall).2.head
      simp only [List.length_cons, List.length_append] at hlast
      rw [← hlast]
      exact congrArg m (by omega)
    have hrender : (Piece.dir d).render m args s.consumed =
        (conv.render m (args (d.fields args s.consumed).2.2.2).toNat (d.fields args s.consumed).1
          (d.fields args s.consumed).2.1 (d.fields args s.consumed).2.2.1,
          (d.fields args s.consumed).2.2.2 + 1) := by
      rw [Piece.render, Directive.render]
      simp only [hconv, Option.map_some, Option.getD_some]
    rw [hrender] at hloc ⊢
    simp only at hloc ⊢
    have hfit : conv = .s →
        (strncpy m (args (d.fields args s.consumed).2.2.2).toNat 1024).length < 1024 :=
      fun hs => hstr.1 (hconv.trans (congrArg some hs))
    obtain ⟨str, n, hout, hprefix, hslen, hstep⟩ := Conv.output_spec
      (d.fields args s.consumed).1 (d.fields args s.consumed).2.1
      (d.fields args s.consumed).2.2.1 conv hfit
    generalize conv.render m (args (d.fields args s.consumed).2.2.2).toNat
      (d.fields args s.consumed).1 (d.fields args s.consumed).2.1
      (d.fields args s.consumed).2.2.1 = shown at *
    obtain ⟨hoff, hat⟩ := @storeAll_apply s.out s.loc str (by omega)
    let j := s.i + d.flags.length + d.width.text.length + d.point.length
    refine ⟨⟨j + 1 + 1, add32 (add32 s.loc n) 1, (d.fields args s.consumed).2.2.2 + 1,
      storeAll s.out s.loc str, max (max s.far (s.i + 1)) (j + 2), s.stored + str.length⟩, ?_,
      ⟨?_, hstep s.loc (by omega), rfl, fun k hk => hoff k (Or.inl hk), ?_, ?_⟩⟩
    · rw [convert]
      simp only [hletter, hconv, hout, Option.map_some]
      rfl
    · simp only [Piece.text, Directive.text, List.length_cons, List.length_append, List.length_nil]
      omega
    · intro k x hk
      refine hat k x ?_
      obtain ⟨tail, rfl⟩ := hprefix
      rw [List.getElem?_append_left (List.getElem?_eq_some_iff.mp hk).1]
      exact hk
    · exact Nat.add_le_add_left hprefix.length_le _

end

/-! ## Runs -/

section

variable {m : Mem} {fmt n : Nat} {args : Nat → BitVec 32} {s : Printer} {ps : List Piece}

/-- `strlen` counts the terminator. -/
theorem strlen_of_endsAt (h : EndsAt m fmt n) (hn : n < 2 ^ 32) : strlen m fmt = some (n + 1) := by
  have hloop : ∀ fuel ret, ret ≤ n → n < fuel + ret → strlenLoop m fmt fuel ret = some (n + 1) := by
    intro fuel
    induction fuel with
    | zero => exact fun ret hle hlt => absurd hlt (by omega)
    | succ fuel ih =>
      intro ret hle hlt
      rw [strlenLoop]
      by_cases heq : ret = n
      · rw [heq, if_neg (not_not_intro h.1)]
      · rw [if_pos (h.2 ret (by omega))]
        exact ih (ret + 1) (by omega) (by omega)
  exact hloop _ 0 (Nat.zero_le _) (by omega)

/-- No piece holds the terminator. -/
theorem Piece.Ok.ne_zero {p : Piece} (hp : p.Ok) : ∀ c ∈ p.text, c ≠ 0 := by
  intro c hc
  cases p with
  | char b =>
    rw [List.mem_singleton.mp hc]
    exact hp.1
  | dir d =>
    -- digits, flags and letters are all different from NUL
    have hdigits : ∀ w : FieldSize, w.Ok → ∀ c ∈ w.text, c ≠ 0 := by
      intro w hw c hc
      cases w with
      | absent => exact absurd hc List.not_mem_nil
      | star =>
        rw [List.mem_singleton.mp hc]
        decide
      | digits ds =>
        rintro rfl
        exact absurd (hw.2 0 hc) (by decide)
    simp only [Piece.text, Directive.text, List.mem_cons, List.mem_append, List.not_mem_nil,
      or_false] at hc
    rcases hc with rfl | hc | hc | hc | rfl
    · decide
    · rintro rfl
      exact absurd (hp.flags 0 hc) (by decide)
    · exact hdigits _ hp.width c hc
    · rw [Directive.point] at hc
      cases hprec : d.precision with
      | none =>
        rw [hprec] at hc
        exact absurd hc List.not_mem_nil
      | some p =>
        rw [hprec] at hc
        rcases List.mem_cons.mp hc with rfl | hc
        · decide
        · exact hdigits p (hp.precision p hprec) c hc
    · exact (letter_spec hp.letter).2.2.2.2.1

/-- A format ends with its terminator. -/
theorem endsAt_of_holds (hok : ∀ p ∈ ps, p.Ok) (h : Holds m fmt (formatText ps ++ [0])) :
    EndsAt m fmt (formatText ps).length := by
  refine ⟨(holds_append.mp h).2.head, fun k hk => ?_⟩
  rw [(holds_append.mp h).1 k _ (List.getElem?_eq_getElem hk)]
  obtain ⟨p, hp, hc⟩ := List.mem_flatMap.mp (List.getElem_mem hk)
  exact (hok p hp).ne_zero _ hc

/-- **The passes over a format**, from any of its pieces on. -/
theorem vsprintfRun_spec (hlen : strlen m fmt = some (n + 1)) (hok : ∀ p ∈ ps, p.Ok)
    (h : Holds m (fmt + s.i) (formatText ps ++ [0])) (hi : s.i + (formatText ps).length = n)
    (hn : n < 2 ^ 32) (hstr : StringsFit m args s.consumed ps)
    (hloc : s.loc + (render m args s.consumed ps).length + 1 < 2 ^ 32) :
    ((∀ p ∈ ps, p.Short) → ∃ s' pos, vsprintfRun m fmt args (ps.length + 1) s = some s' ∧
      Passed s s' ((formatText ps).length + 1) (render m args s.consumed ps ++ [0]) pos) ∧
    ((∃ p ∈ ps, ¬ p.Short) → vsprintfRun m fmt args (ps.length + 1) s = none) := by
  induction ps generalizing s with
  | nil =>
    -- the pass over the terminator
    refine ⟨fun _ => ?_, by simp⟩
    obtain ⟨s', hs', hpassed⟩ := @vsprintfPass_char m fmt { s with far := max s.far (n + 1) } args 0
      (Holds.head h) (by decide)
      (by simp only [render, List.length_nil] at hloc; simpa using hloc)
    refine ⟨s', s.consumed, ?_, ?_⟩
    · rw [List.length_nil, vsprintfRun, hlen, Option.bind_some]
      simp only
      rw [if_pos (by simp [formatText] at hi; omega), hs']
      rfl
    · exact ⟨hpassed.i, hpassed.loc, hpassed.consumed, hpassed.below, hpassed.shown,
        hpassed.stored⟩
  | cons p ps ih =>
    have htext : formatText (p :: ps) = p.text ++ formatText ps := List.flatMap_cons ..
    rw [htext, List.append_assoc] at h
    rw [htext, List.length_append] at hi
    rw [htext]
    rw [render, List.length_append] at hloc
    rw [render]
    obtain ⟨hp, hrest⟩ := holds_append.mp h
    have hpass := @vsprintfPass_spec m fmt args { s with far := max s.far (n + 1) } p
      (hok p (by simp)) hp (by omega) ⟨hstr.1, trivial⟩ (by simp only; omega)
    have hrun : vsprintfRun m fmt args ((p :: ps).length + 1) s =
        (vsprintfPass m fmt args { s with far := max s.far (n + 1) }).bind
          (vsprintfRun m fmt args (ps.length + 1)) := by
      rw [List.length_cons, vsprintfRun, hlen, Option.bind_some]
      simp only
      rw [if_pos (by omega)]
    rw [hrun]
    by_cases hshort : p.Short
    · -- this piece is rendered, and the rest from where it leaves `loc`
      obtain ⟨s₁, hs₁, hpassed⟩ := hpass.1 hshort
      obtain ⟨hi₁, hloc₁, hcons₁, hbelow₁, hshown₁, hstored₁⟩ := hpassed
      simp only at hi₁ hloc₁ hcons₁ hbelow₁ hshown₁ hstored₁
      have hnext := ih (s := s₁) (fun q hq => hok q (by simp [hq]))
        (by rw [hi₁, ← Nat.add_assoc]; exact hrest) (by omega) (by rw [hcons₁]; exact hstr.2)
        (by rw [hcons₁]; omega)
      rw [hs₁, Option.bind_some]
      refine ⟨fun hall => ?_, fun hlong => ?_⟩
      · obtain ⟨s', pos, hs', hpassed'⟩ := hnext.1 fun q hq => hall q (by simp [hq])
        obtain ⟨hi', hloc', hcons', hbelow', hshown', hstored'⟩ := hpassed'
        rw [hcons₁] at hloc' hshown' hstored'
        refine ⟨s', pos, hs', ?_, ?_, hcons', fun k hk => ?_, fun k x hk => ?_, ?_⟩
        · rw [hi', hi₁, List.length_append]
          omega
        · rw [hloc', hloc₁]
          simp only [List.length_append]
          omega
        · rw [hbelow' k (by omega), hbelow₁ k hk]
        · -- a byte of this piece, or of the pieces behind it
          rw [List.append_assoc] at hk
          by_cases hlt : k < (p.render m args s.consumed).1.length
          · rw [List.getElem?_append_left hlt] at hk
            rw [hbelow' _ (by omega)]
            exact hshown₁ k x hk
          · rw [List.getElem?_append_right (by omega)] at hk
            rw [← hshown' _ x hk, hloc₁]
            exact congrArg _ (by omega)
        · simp only [List.length_append] at hstored' ⊢
          omega
      · refine hnext.2 ?_
        obtain ⟨q, hq, hlong⟩ := hlong
        rcases List.mem_cons.mp hq with rfl | hq
        · exact absurd hshort hlong
        · exact ⟨q, hq, hlong⟩
    · refine ⟨fun hall => absurd (hall p (by simp)) hshort, fun _ => ?_⟩
      rw [hpass.2 hshort]
      rfl

/-- The passes are those of the loop. -/
theorem vsprintfLoop_run {k fuel : Nat} {s' : Printer} (h : vsprintfRun m fmt args k s = some s') :
    vsprintfLoop m fmt args (fuel + k) s = vsprintfLoop m fmt args fuel s' := by
  induction k generalizing s with
  | zero =>
    obtain rfl := Option.some.inj h
    rfl
  | succ k ih =>
    rw [vsprintfRun, Option.bind_eq_some_iff] at h
    obtain ⟨len, hlen, h⟩ := h
    simp only at h
    rw [← Nat.add_assoc, vsprintfLoop, hlen, Option.bind_some]
    simp only
    split at h
    · -- one more pass
      rename_i hle
      rw [Option.bind_eq_some_iff] at h
      obtain ⟨s₁, hs₁, h⟩ := h
      rw [if_pos hle, hs₁, Option.bind_some]
      exact ih h
    · -- a run does not go on behind the terminator
      exact absurd h (by simp)

/-! The index never goes back. -/

/-- The loop over the flags goes forward. -/
theorem le_flagLoop {fuel i : Nat} {flags : Flags} {res : Nat × Flags}
    (h : flagLoop m fmt fuel i flags = some res) : i ≤ res.1 := by
  induction fuel generalizing i flags with
  | zero => exact absurd h (by simp [flagLoop])
  | succ fuel ih =>
    rw [flagLoop] at h
    split at h
    · exact (Nat.le_succ i).trans (ih h)
    · rw [← Option.some.inj h]

/-- The loop over digits goes forward. -/
theorem le_digitRun {fuel i : Nat} {res : Nat × List UInt8}
    (h : digitRun m fmt fuel i = some res) : i ≤ res.1 := by
  induction fuel generalizing i res with
  | zero => exact absurd h (by simp [digitRun])
  | succ fuel ih =>
    rw [digitRun] at h
    split at h
    · rw [Option.map_eq_some_iff] at h
      obtain ⟨rest, hrest, rfl⟩ := h
      have hle := ih hrest
      exact (Nat.le_succ i).trans hle
    · rw [← Option.some.inj h]

/-- `get_number` goes forward. -/
theorem le_getNumber {i : Nat} {res : Nat × Int} (h : getNumber m fmt i = some res) :
    i ≤ res.1 := by
  rw [getNumber, Option.bind_eq_some_iff] at h
  obtain ⟨run, hrun, h⟩ := h
  split at h
  · rw [← Option.some.inj h]
    exact le_digitRun hrun
  · exact absurd h (by simp)

/-- `get_width` goes forward. -/
theorem le_getWidth {i consumed : Nat} {flags : Flags} {res : Nat × Int × Nat × Flags}
    (h : getWidth m fmt args i consumed flags = some res) : i ≤ res.1 := by
  rw [getWidth] at h
  split at h
  · rw [Option.map_eq_some_iff] at h
    obtain ⟨num, hnum, rfl⟩ := h
    exact le_getNumber hnum
  · split at h
    · simp only at h
      split at h <;> rw [← Option.some.inj h] <;> exact Nat.le_succ i
    · rw [← Option.some.inj h]

/-- `get_precision` goes forward. -/
theorem le_getPrecision {i consumed : Nat} {res : Nat × Int × Nat}
    (h : getPrecision m fmt args i consumed = some res) : i ≤ res.1 := by
  rw [getPrecision] at h
  split at h
  · simp only [Option.map_eq_some_iff] at h
    obtain ⟨res', hres', rfl⟩ := h
    refine (Nat.le_succ i).trans ?_
    split at hres'
    · -- digits
      rw [Option.map_eq_some_iff] at hres'
      obtain ⟨num, hnum, rfl⟩ := hres'
      exact le_getNumber hnum
    · split at hres'
      · -- a star, or a point without a number
        rw [← Option.some.inj hres']
        exact Nat.le_succ _
      · rw [← Option.some.inj hres']
  · -- no point
    rw [← Option.some.inj h]

/-- What a conversion stores goes to `loc` and behind it. -/
theorem convert_out {s' : Printer} {flags : Flags} {width precision : Int}
    (h : convert m fmt args s flags width precision = some s') :
    s.i ≤ s'.i ∧
      ∃ str, s'.out = storeAll s.out s.loc str ∧ s'.stored = s.stored + str.length := by
  rw [convert] at h
  split at h
  · rw [← Option.some.inj h]
    exact ⟨le_refl _, [], rfl, rfl⟩
  · rw [Option.map_eq_some_iff] at h
    obtain ⟨⟨str, n⟩, -, rfl⟩ := h
    exact ⟨Nat.le_succ _, str, rfl, rfl⟩

/-- What a pass stores goes to `loc` and behind it. -/
theorem vsprintfPass_out {s' : Printer} (h : vsprintfPass m fmt args s = some s') :
    s.i + 1 ≤ s'.i ∧
      ∃ str, s'.out = storeAll s.out s.loc str ∧ s'.stored = s.stored + str.length := by
  rw [vsprintfPass] at h
  simp only [Option.map_eq_some_iff] at h
  obtain ⟨s₁, hs₁, rfl⟩ := h
  split at hs₁
  · -- a directive
    rw [directive] at hs₁
    simp only [Option.bind_eq_some_iff] at hs₁
    obtain ⟨⟨i, flags⟩, hflags, ⟨i', width, consumed, flags'⟩, hwidth,
      ⟨i'', precision, consumed'⟩, hprec, hconv⟩ := hs₁
    obtain ⟨hle, str, hout, hstored⟩ := convert_out hconv
    have hmono := (le_flagLoop hflags).trans ((le_getWidth hwidth).trans (le_getPrecision hprec))
    exact ⟨Nat.succ_le_succ (hmono.trans hle), str, hout, hstored⟩
  · -- a character
    rw [← Option.some.inj hs₁]
    exact ⟨le_refl _, _, rfl, rfl⟩

/-- The loop has a result when the pass over the byte behind the terminator has one. -/
theorem vsprintfLoop_last {s' : Printer} {fuel : Nat} (hlen : strlen m fmt = some (n + 1))
    (hi : s.i = n + 1) (hpass : vsprintfPass m fmt args { s with far := max s.far s.i } = some s') :
    ∃ r, vsprintfLoop m fmt args (fuel + 2) s = some r := by
  have hle := (vsprintfPass_out hpass).1
  simp only at hle
  rw [vsprintfLoop, hlen, Option.bind_some]
  simp only
  rw [if_pos (le_of_eq hi), ← hi, hpass, Option.bind_some, vsprintfLoop, hlen, Option.bind_some]
  simp only
  rw [if_neg (by omega)]
  exact ⟨_, rfl⟩

/-- The pass over the byte behind the terminator is the last one, and stores nothing in front
    of `loc`. -/
theorem vsprintfLoop_tail {r : Printer} {fuel : Nat} (hlen : strlen m fmt = some (n + 1))
    (hr : vsprintfLoop m fmt args fuel s = some r) (hi : n + 1 ≤ s.i)
    (hfit : s.loc + r.stored ≤ 2 ^ 32 + s.stored) : ∀ k < s.loc, r.out k = s.out k := by
  -- behind the pass at n + 1 the loop stops
  have hend : ∀ fuel (s r : Printer), n + 1 < s.i → vsprintfLoop m fmt args fuel s = some r →
      r.out = s.out ∧ r.stored = s.stored := by
    intro fuel s r hi hr
    cases fuel with
    | zero => exact absurd hr (by simp [vsprintfLoop])
    | succ fuel =>
      rw [vsprintfLoop, hlen, Option.bind_some] at hr
      simp only at hr
      rw [if_neg (by omega)] at hr
      rw [← Option.some.inj hr]
      exact ⟨rfl, rfl⟩
  by_cases hlast : n + 1 < s.i
  · rw [(hend fuel s r hlast hr).1]
    exact fun _ _ => rfl
  · cases fuel with
    | zero => exact absurd hr (by simp [vsprintfLoop])
    | succ fuel =>
      rw [vsprintfLoop, hlen, Option.bind_some] at hr
      simp only at hr
      rw [if_pos (by omega), Option.bind_eq_some_iff] at hr
      obtain ⟨s₁, hs₁, hr⟩ := hr
      obtain ⟨hi₁, str, hout, hst⟩ := vsprintfPass_out hs₁
      simp only at hi₁ hout hst
      obtain ⟨hout', hst'⟩ := hend fuel s₁ r (by omega) hr
      rw [hout', hout]
      exact fun k hk => (storeAll_apply (by omega)).1 k (Or.inl hk)

end

/-! ## The rendering -/

/-- The format of the pieces `ps` is rendered to `buf`: the passes over it take the whole format
    and leave the rendering of the pieces, one after the other, with the terminator behind it.
    They are the first passes of the call, and no later one changes a byte of it. The call has no
    result only when the pass over the byte behind the terminator has none, where what follows there
    overruns `tmp`: then the rendering is what is left of the call. -/
def Rendered (m : Mem) (fmt : Nat) (args : Nat → BitVec 32) (buf : Nat) (ps : List Piece) : Prop :=
  ∃ s, vsprintfRun m fmt args (ps.length + 1) startPrinter = some s ∧
    s.i = (formatText ps).length + 1 ∧
    s.loc = (render m args 0 ps).length + 1 ∧
    (∀ k x, (render m args 0 ps ++ [0])[k]? = some x → s.out k = some x) ∧
    vsprintf m fmt args buf = vsprintfLoop m fmt args (2 ^ 33 - (ps.length + 1)) s ∧
    (vsprintf m fmt args buf = none →
      vsprintfPass m fmt args { s with far := max s.far s.i } = none) ∧
    ∀ r, vsprintf m fmt args buf = some r → r.stored ≤ 2 ^ 32 →
      ∀ k x, (render m args 0 ps ++ [0])[k]? = some x → r.out k = some x

/-- Every piece has at least one byte. -/
theorem length_le_formatText (ps : List Piece) : ps.length ≤ (formatText ps).length := by
  induction ps with
  | nil => exact le_refl _
  | cons p ps ih =>
    have htext : formatText (p :: ps) = p.text ++ formatText ps := List.flatMap_cons ..
    have hp : 1 ≤ p.text.length := by
      cases p with
      | char c => exact le_refl _
      | dir d => exact Nat.succ_le_succ (Nat.zero_le _)
    rw [htext, List.length_append, List.length_cons]
    omega

/-- **What `vsprintf` renders.** A format of characters and directives is rendered if and only
    if the digits of every width and of every precision fit into `tmp`. -/
theorem format_rendered_iff {m : Mem} {fmt buf : Nat} (args : Nat → BitVec 32) {ps : List Piece}
    (hok : ∀ p ∈ ps, p.Ok) (h : Holds m fmt (formatText ps ++ [0]))
    (hfmt : fmt + (formatText ps).length < 2 ^ 32) (hstr : StringsFit m args 0 ps)
    (hbuf : (render m args 0 ps).length + 1 < 2 ^ 32) (hnull : buf ≠ 0 ∧ fmt ≠ 0) :
    Rendered m fmt args buf ps ↔ ∀ p ∈ ps, p.Short := by
  have hlen := strlen_of_endsAt (endsAt_of_holds hok h) (by omega)
  -- the run lemma covers both directions: it returns exactly when all digits fit
  have hspec := @vsprintfRun_spec m fmt _ args startPrinter ps hlen hok h (Nat.zero_add _)
    (by omega) hstr (by simp only [startPrinter]; omega)
  constructor
  · rintro ⟨s, hs, -⟩
    by_contra hlong
    push Not at hlong
    rw [hspec.2 hlong] at hs
    exact absurd hs (by simp)
  · intro hshort
    obtain ⟨s, pos, hs, hi, hloc, -, -, hshown, hstored⟩ := hspec.1 hshort
    simp only [startPrinter, List.length_append, List.length_singleton, Nat.zero_add] at hi hloc
    simp only [startPrinter, Nat.zero_add] at hshown
    simp only [startPrinter, List.length_append, List.length_singleton, Nat.zero_add] at hstored
    -- what is left of the loop is the pass behind the terminator
    have hcall : vsprintf m fmt args buf = vsprintfLoop m fmt args (2 ^ 33 - (ps.length + 1)) s := by
      have hpieces := length_le_formatText ps
      rw [vsprintf, if_neg (by simp [hnull]), ← vsprintfLoop_run hs]
      exact congrArg (vsprintfLoop m fmt args · startPrinter) (by omega)
    refine ⟨s, hs, hi, hloc, hshown, hcall, fun hnone => ?_, fun r hr hsmall k x hk => ?_⟩
    · by_contra hpass
      obtain ⟨s', hs'⟩ := Option.ne_none_iff_exists'.mp hpass
      have hpieces := length_le_formatText ps
      have hfuel : 2 ^ 33 - (ps.length + 1) = 2 ^ 33 - (ps.length + 1) - 2 + 2 := by omega
      obtain ⟨r, hr⟩ : ∃ r, vsprintfLoop m fmt args (2 ^ 33 - (ps.length + 1)) s = some r := by
        rw [hfuel]
        exact vsprintfLoop_last hlen hi hs'
      rw [hcall, hr] at hnone
      exact absurd hnone (by simp)
    have hlt := (List.getElem?_eq_some_iff.mp hk).1
    rw [List.length_append, List.length_singleton] at hlt
    rw [vsprintfLoop_tail hlen (hcall ▸ hr) (by omega) (by omega) k (by omega)]
    exact hshown k x hk

/-- A memory that holds nothing but a text. -/
def textMem (a : Nat) (l : List UInt8) : Mem := fun x => if a ≤ x then l.getD (x - a) 0 else 0

/-- The text of a test lies in its memory. -/
theorem holds_textMem (a : Nat) (l : List UInt8) : Holds (textMem a l) a l := by
  intro k c hk
  rw [textMem, if_pos (by omega), Nat.add_sub_cancel_left, List.getD_eq_getElem?_getD, hk,
    Option.getD_some]

/-- `"a%d"` -/
def shortFormat : List Piece := [.char 97, .dir ⟨[], .absent, none, 100⟩]

/-- The format of the example has the form that `vsprintf` reads. -/
theorem shortFormat_ok : ∀ p ∈ shortFormat, p.Ok := by
  intro p hp
  simp only [shortFormat, List.mem_cons, List.not_mem_nil, or_false] at hp
  rcases hp with rfl | rfl
  · exact ⟨by decide, by decide⟩
  · exact ⟨fun c hc => absurd hc List.not_mem_nil, trivial, by decide, by simp, by decide⟩

/-- The passes over `"a%d"` for the argument 7 store `"a7"`. -/
theorem format_rendered_iff_short :
    Rendered (textMem 0x100 (formatText shortFormat ++ [0])) 0x100 (fun _ => 7) 0x200 shortFormat ∧
      render (textMem 0x100 (formatText shortFormat ++ [0])) (fun _ => 7) 0 shortFormat =
        [97, 55] := by
  have hrender : render (textMem 0x100 (formatText shortFormat ++ [0])) (fun _ => 7) 0 shortFormat =
      [97, 55] := by rfl
  refine ⟨(format_rendered_iff (fun _ => 7) shortFormat_ok (holds_textMem _ _) (by decide)
    ⟨trivial, by decide, trivial⟩ (by rw [hrender]; decide) (by decide)).mpr fun p hp => ?_,
    hrender⟩
  simp only [shortFormat, List.mem_cons, List.not_mem_nil, or_false] at hp
  rcases hp with rfl | rfl
  · trivial
  · exact ⟨trivial, by simp⟩

/-- `%.0…0d`, with `n` zeros for the precision. -/
def zerosDirective (n : Nat) : Directive := ⟨[], .absent, some (.digits (List.replicate n 48)), 100⟩

/-- So has a directive with many zeros. -/
theorem zerosDirective_ok {n : Nat} (hn : n ≠ 0) : (zerosDirective n).Ok := by
  refine ⟨fun c hc => absurd hc List.not_mem_nil, trivial, fun h => absurd h (by simp [zerosDirective,
    FieldSize.text]), fun p hp => ?_, by simp [zerosDirective]⟩
  obtain rfl := Option.some.inj hp
  refine ⟨fun h => hn (by simpa using h), fun c hc => ?_⟩
  rw [List.eq_of_mem_replicate hc]
  decide

/-- Zeros are the number 0. -/
theorem atoi_replicate_zero (n : Nat) : atoi (List.replicate (n + 1) 48) = 0 := by
  have hloop : ∀ n, atoiLoop 8 (List.replicate n 48) 0 = 0 := by
    intro n
    induction n with
    | zero => rfl
    | succ n ih =>
      rw [List.replicate_succ, atoiLoop, if_neg (by decide)]
      exact ih
  rw [List.replicate_succ, atoi]
  simp only [List.dropWhile_cons, show ((48 : UInt8) == 32) = false from rfl, Bool.false_eq_true,
    if_false, List.head?_cons, if_true, List.tail_cons]
  rw [if_neg, hloop]
  cases n with
  | zero => simp
  | succ n => simp [List.replicate_succ]

/-- A directive whose digits do not fit into `tmp` stores behind its end. -/
theorem vsprintf_long {m : Mem} {fmt buf : Nat} {args : Nat → BitVec 32} {d : Directive}
    (hd : d.Ok) (hlong : ¬ Piece.Short (.dir d)) (h : Holds m fmt (formatText [.dir d] ++ [0]))
    (hlen : d.text.length < 2 ^ 32) (hnull : buf ≠ 0 ∧ fmt ≠ 0) :
    vsprintf m fmt args buf = none ∧ ¬ Rendered m fmt args buf [.dir d] := by
  have htext : formatText [.dir d] = d.text := List.append_nil _
  have hok : ∀ p ∈ [Piece.dir d], p.Ok := by
    intro p hp
    rwa [List.mem_singleton.mp hp]
  have hstrlen := strlen_of_endsAt (endsAt_of_holds hok h) (by rwa [htext])
  rw [htext] at h
  -- the first pass is the last one
  have hpass : ∀ far, vsprintfPass m fmt args ⟨0, 0, 0, fun _ => none, far, 0⟩ = none := by
    intro far
    have hpercent : m (fmt + 0) = 37 := Holds.head (holds_append.mp h).1
    rw [vsprintfPass]
    simp only [hpercent, if_pos]
    rw [(@directive_spec m fmt args d hd ⟨0, 0, 0, fun _ => none, max far (0 + 1), 0⟩
      (holds_append.mp h).1 hlen).2 hlong]
    rfl
  have hstart : startPrinter.i ≤ (formatText [.dir d]).length + 1 := Nat.zero_le _
  constructor
  · rw [vsprintf, if_neg (by simp [hnull]), show 2 ^ 33 = 2 ^ 33 - 1 + 1 from rfl, vsprintfLoop,
      hstrlen, Option.bind_some]
    simp only [if_pos hstart]
    rw [startPrinter, hpass]
    rfl
  · rintro ⟨s, hs, -⟩
    rw [List.length_singleton, vsprintfRun, hstrlen, Option.bind_some] at hs
    simp only [if_pos hstart] at hs
    rw [startPrinter, hpass] at hs
    exact absurd hs (by simp)

/-- What the directive is to render. -/
theorem zerosDirective_render (m : Mem) {n : Nat} (hn : n ≠ 0) :
    (zerosDirective n).fields (fun _ => 7) 0 = (noFlags, -1, 0, 0) ∧
      render m (fun _ => 7) 0 [.dir (zerosDirective n)] = [55] := by
  obtain ⟨n, rfl⟩ := Nat.exists_eq_succ_of_ne_zero hn
  have hfields : (zerosDirective (n + 1)).fields (fun _ => 7) 0 = (noFlags, -1, 0, 0) := by
    simp only [Directive.fields, zerosDirective, FieldSize.asWidth, asPrecision,
      atoi_replicate_zero, Directive.flagSet, List.foldl_nil]
    rfl
  refine ⟨hfields, ?_⟩
  simp only [render, Piece.render, Directive.render, Nat.succ_eq_add_one, hfields]
  rfl

/-- From 1024 digits on the buffer of `get_number` is too short. -/
theorem zerosDirective_long {n : Nat} (hn : 1024 ≤ n) : ¬ Piece.Short (.dir (zerosDirective n)) := by
  intro h
  have hlt : (List.replicate n (48 : UInt8)).length < 1024 := h.2 _ rfl
  rw [List.length_replicate] at hlt
  omega

/-- The zeros stand between `%1` and the letter. -/
theorem zerosDirective_length (n : Nat) : (zerosDirective n).text.length = n + 3 := by
  simp [Directive.text, zerosDirective, FieldSize.text, Directive.point]

/-- The digits of a precision are stored behind the end of `tmp`: the format `"%.0…0d"` with 1024
    zeros, whose precision is 0, is not rendered. -/
theorem format_overruns :
    ∃ m : Mem, Piece.Ok (.dir (zerosDirective 1024)) ∧
      Holds m 0x1000 (formatText [.dir (zerosDirective 1024)] ++ [0]) ∧
      (zerosDirective 1024).fields (fun _ => 7) 0 = (noFlags, -1, 0, 0) ∧
      render m (fun _ => 7) 0 [.dir (zerosDirective 1024)] = [55] ∧
      vsprintf m 0x1000 (fun _ => 7) 0x200 = none ∧
      ¬ Rendered m 0x1000 (fun _ => 7) 0x200 [.dir (zerosDirective 1024)] := by
  have hok : (zerosDirective 1024).Ok := zerosDirective_ok (by decide)
  have hholds := holds_textMem 0x1000 (formatText [.dir (zerosDirective 1024)] ++ [0])
  have hlen : (zerosDirective 1024).text.length < 2 ^ 32 := by
    rw [zerosDirective_length]
    decide
  obtain ⟨hfields, hrender⟩ := zerosDirective_render _ (by decide : 1024 ≠ 0)
  obtain ⟨hnone, hnot⟩ := vsprintf_long hok (zerosDirective_long (le_refl _)) hholds hlen
    (by decide : 0x200 ≠ 0 ∧ 0x1000 ≠ 0)
  exact ⟨_, hok, hholds, hfields, hrender, hnone, hnot⟩

end Toutatis
