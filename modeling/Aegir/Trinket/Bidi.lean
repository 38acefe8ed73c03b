/-
  The bidirectional algorithm for a paragraph (trinket, `bidi.cc`).

  The steps are the source's, in its order: the paragraph's level, the explicit levels, the
  characters that are left in and their level runs, the isolating run sequences and what is
  resolved in each, and the visual order.  A loop over a sequence's classes is a function of
  the list; where it looks back at what it changed, the last class is a parameter, and where
  it looks ahead over a run, the run's length so far is (`w5From`, `neutralsFrom`).

  The tables that are generated from Unicode's data are parameters: a character's class, the
  bracket it is paired with and whether it opens, and its mirror.
-/
import Mathlib

namespace Aegir.Trinket

/-! ## Classes -/

inductive BidiDirection where
  | LTR | RTL
deriving DecidableEq

inductive BidiClass where
  | L | R | AL | EN | ES | ET | AN | CS | B | S | WS | ON
  | LRE | LRO | RLE | RLO | PDF | NSM | BN | LRI | RLI | FSI | PDI
deriving DecidableEq

open BidiClass

/-- The generated tables. -/
structure Tables where
  /-- `bidi_class` -/
  bidiClass : ℕ → BidiClass
  /-- `bracket_lookup`: the paired character, and whether the bracket is an opening one. -/
  bracket : ℕ → Option (ℕ × Bool)
  /-- `mirror_char` -/
  mirror : ℕ → ℕ

def kMaxLevel : ℕ := 125

def isRemoved (c : BidiClass) : Bool := c ∈ [RLE, LRE, RLO, LRO, PDF, BN]

/-- `is_isolate` and `is_isolate_or_pdi` -/
def isIsolate (c : BidiClass) : Bool := c ∈ [LRI, RLI, FSI]
def isIsolateOrPdi (c : BidiClass) : Bool := isIsolate c || c == PDI

/-- `first_strong` of the classes of a range, from a depth of isolates on. -/
def firstStrong : ℕ → List BidiClass → Option ℕ
  | _, [] => none
  | depth, c :: types =>
    if isIsolate c then firstStrong (depth + 1) types
    else if c = PDI then firstStrong (depth - 1) types
    else if depth = 0 ∧ c = L then some 0
    else if depth = 0 ∧ (c = R ∨ c = AL) then some 1
    else firstStrong depth types

/-- `strong_contrib`, and what is neutral -/
def strongContrib (c : BidiClass) : Option ℕ := if c = L then some 0 else if c ∈ [R, EN, AN] then some 1 else none

def classOf (dir : ℕ) : BidiClass := if dir = 0 then L else R

def leastOddGreater (level : ℕ) : ℕ := (level + 1) / 2 * 2 + 1
def leastEvenGreater (level : ℕ) : ℕ := (level + 2) / 2 * 2
def higherParity (a b : ℕ) : ℕ := max a b % 2

/-! ## Explicit levels -/

structure StackEntry where
  level : ℕ
  /-- 0 none, 1 L, 2 R -/
  override : ℕ
  isolate : Bool

/-- What the rules X1 to X8 keep: the stack, its last entry apart, and the counts. -/
structure Explicit where
  top : StackEntry
  below : List StackEntry
  overflowIsolate : ℕ
  overflowEmbedding : ℕ
  validIsolate : ℕ

namespace Explicit

def start (paragraphLevel : ℕ) : Explicit := ⟨⟨paragraphLevel, 0, false⟩, [], 0, 0, 0⟩

def push (x : Explicit) (entry : StackEntry) : Explicit := { x with top := entry, below := x.top :: x.below }

def pop (x : Explicit) : Explicit :=
  match x.below with
  | [] => x
  | entry :: below => { x with top := entry, below := below }

/-- Entries are popped up to an isolate. -/
def popTo (top : StackEntry) : List StackEntry → StackEntry × List StackEntry
  | [] => (top, [])
  | entry :: below => if top.isolate then (top, entry :: below) else popTo entry below

def resolve (x : Explicit) (c : BidiClass) : BidiClass :=
  if x.top.override = 1 then L else if x.top.override = 2 then R else c

def embed (x : Explicit) (next override : ℕ) : Explicit :=
  if next ≤ kMaxLevel ∧ x.overflowIsolate = 0 ∧ x.overflowEmbedding = 0 then x.push ⟨next, override, false⟩
  else if x.overflowIsolate = 0 then { x with overflowEmbedding := x.overflowEmbedding + 1 }
  else x

def isolate (x : Explicit) (next : ℕ) : Explicit :=
  if next ≤ kMaxLevel ∧ x.overflowIsolate = 0 ∧ x.overflowEmbedding = 0 then
    { x.push ⟨next, 0, true⟩ with validIsolate := x.validIsolate + 1 }
  else { x with overflowIsolate := x.overflowIsolate + 1 }

def popIsolate (x : Explicit) : Explicit :=
  if 0 < x.overflowIsolate then { x with overflowIsolate := x.overflowIsolate - 1 }
  else if 0 < x.validIsolate then
    let (top, below) := popTo x.top x.below
    { { x with top := top, below := below, overflowEmbedding := 0 }.pop with validIsolate := x.validIsolate - 1 }
  else x

def popEmbedding (x : Explicit) : Explicit :=
  if 0 < x.overflowIsolate then x
  else if 0 < x.overflowEmbedding then { x with overflowEmbedding := x.overflowEmbedding - 1 }
  else if 2 ≤ x.below.length + 1 ∧ x.top.isolate = false then x.pop
  else x

/-- A turn of the loop: the level and the class of a character, and what is kept.  The direction of an
    isolate that takes it from its contents is `first`. -/
def step (paragraphLevel : ℕ) (first : Option ℕ) (x : Explicit) (c : BidiClass) : (ℕ × BidiClass) × Explicit :=
  match c with
  | RLE => ((x.top.level, c), x.embed (leastOddGreater x.top.level) 0)
  | LRE => ((x.top.level, c), x.embed (leastEvenGreater x.top.level) 0)
  | RLO => ((x.top.level, c), x.embed (leastOddGreater x.top.level) 2)
  | LRO => ((x.top.level, c), x.embed (leastEvenGreater x.top.level) 1)
  | RLI => ((x.top.level, x.resolve c), x.isolate (leastOddGreater x.top.level))
  | LRI => ((x.top.level, x.resolve c), x.isolate (leastEvenGreater x.top.level))
  | FSI =>
    ((x.top.level, x.resolve c),
      x.isolate (if first.getD 0 ≠ 0 then leastOddGreater x.top.level else leastEvenGreater x.top.level))
  | PDI => ((x.popIsolate.top.level, x.popIsolate.resolve c), x.popIsolate)
  | PDF => ((x.popEmbedding.top.level, c), x.popEmbedding)
  | B => ((paragraphLevel, c), start paragraphLevel)
  | _ => ((x.top.level, x.resolve c), x)

end Explicit

/-- The matching PDI of each isolate initiator; `open_` are the initiators without one so far. -/
def pdiFrom : ℕ → List ℕ → List BidiClass → (ℕ → Option ℕ) → ℕ → Option ℕ
  | _, _, [], pdi => pdi
  | i, open_, c :: types, pdi =>
    if isIsolate c then pdiFrom (i + 1) (i :: open_) types pdi
    else
      match open_ with
      | [] => pdiFrom (i + 1) [] types pdi
      | o :: open_ =>
        if c = PDI then pdiFrom (i + 1) open_ types (Function.update pdi o (some i))
        else pdiFrom (i + 1) (o :: open_) types pdi

def pdiMatch (types : List BidiClass) : ℕ → Option ℕ := pdiFrom 0 [] types fun _ => none

/-- The loop of X1 to X8, of the characters from the `i`th on. -/
def explicitFrom (paragraphLevel : ℕ) (pdi : ℕ → Option ℕ) : ℕ → Explicit → List BidiClass → List (ℕ × BidiClass)
  | _, _, [] => []
  | i, x, c :: types =>
    -- an isolate's contents end before its PDI, or with the text
    let contents := (pdi i).elim types fun p => types.take (p - (i + 1))
    let (found, x) := x.step paragraphLevel (firstStrong 0 contents) c
    found :: explicitFrom paragraphLevel pdi (i + 1) x types

/-! ## Level runs -/

structure LevelRun where
  begin_ : ℕ
  end_ : ℕ
  level : ℕ

/-- The runs of a level, of the retained characters from the `k`th on. -/
def levelRunsFrom (levels : ℕ → ℕ) : ℕ → LevelRun → List ℕ → List LevelRun
  | _, run, [] => [run]
  | k, run, i :: retained =>
    if levels i = run.level then levelRunsFrom levels (k + 1) { run with end_ := k + 1 } retained
    else run :: levelRunsFrom levels (k + 1) ⟨k, k + 1, levels i⟩ retained

def levelRuns (levels : ℕ → ℕ) : List ℕ → List LevelRun
  | [] => []
  | i :: retained => levelRunsFrom levels 1 ⟨0, 1, levels i⟩ retained

/-- The runs that follow one another in a sequence; a successor is a later run. -/
def runsFrom (successor : ℕ → Option ℕ) : ℕ → ℕ → List ℕ
  | 0, r => [r]
  | n + 1, r => r :: (successor r).elim [] (runsFrom successor n)

/-! ## A sequence -/

section
variable (sos eos level : ℕ)

def w1From : Option BidiClass → List BidiClass → List BidiClass
  | _, [] => []
  | prev, c :: st =>
    let c' := if c ≠ NSM then c
      else prev.elim (classOf sos) fun p => if isIsolateOrPdi p then ON else p
    c' :: w1From (some c') st

def w2From : BidiClass → List BidiClass → List BidiClass
  | _, [] => []
  | last, c :: st =>
    if c = L ∨ c = R ∨ c = AL then c :: w2From c st
    else (if c = EN ∧ last = AL then AN else c) :: w2From last st

def w3 (st : List BidiClass) : List BidiClass := st.map fun c => if c = AL then R else c

/-- W4 of all but the first, which is `prev` -/
def w4From : BidiClass → List BidiClass → List BidiClass
  | _, [] => []
  | _, [c] => [c]
  | prev, c :: next :: st =>
    let c' := if c = ES ∧ prev = EN ∧ next = EN then EN
      else if c = CS ∧ prev = EN ∧ next = EN then EN
      else if c = CS ∧ prev = AN ∧ next = AN then AN
      else c
    c' :: w4From c' (next :: st)

def w4 : List BidiClass → List BidiClass
  | [] => []
  | c :: st => c :: w4From c st

/-- W5; a run of so many ET has been passed. -/
def w5From : Option BidiClass → ℕ → List BidiClass → List BidiClass
  | prev, run, [] => List.replicate run (if prev = some EN then EN else ET)
  | prev, run, c :: st =>
    if c = ET then w5From prev (run + 1) st
    else List.replicate run (if prev = some EN ∨ c = EN then EN else ET) ++ c :: w5From (some c) 0 st

def w6 (st : List BidiClass) : List BidiClass := st.map fun c => if c = ES ∨ c = ET ∨ c = CS then ON else c

def w7From : BidiClass → List BidiClass → List BidiClass
  | _, [] => []
  | last, c :: st =>
    if c = L ∨ c = R then c :: w7From c st
    else (if c = EN ∧ last = L then L else c) :: w7From last st

/-- The brackets that are written in two ways. -/
def canonical (cp : ℕ) : ℕ := if cp = 0x2329 then 0x3008 else if cp = 0x232a then 0x3009 else cp

/-- The pairs of brackets; `open_` are the opening ones so far, the last one first. -/
def pairsFrom (bracket : ℕ → Option (ℕ × Bool)) :
    ℕ → List (ℕ × ℕ) → List (ℕ × ℕ) → List (BidiClass × ℕ) → List (ℕ × ℕ)
  | _, _, pairs, [] => pairs
  | k, open_, pairs, (c, cp) :: st =>
    if c ≠ ON then pairsFrom bracket (k + 1) open_ pairs st
    else
      match bracket cp with
      | none => pairsFrom bracket (k + 1) open_ pairs st
      | some (paired, true) =>
        -- a 64th opening bracket empties the list
        if 63 ≤ open_.length then [] else pairsFrom bracket (k + 1) ((k, canonical paired) :: open_) pairs st
      | some (_, false) =>
        match open_.dropWhile fun entry => entry.2 ≠ canonical cp with
        | [] => pairsFrom bracket (k + 1) open_ pairs st
        | (o, _) :: below => pairsFrom bracket (k + 1) below (pairs ++ [(o, k)]) st

def setMarks (types : List BidiClass) (c : BidiClass) (base : ℕ) (st : List BidiClass) : List BidiClass :=
  (List.range ((types.drop (base + 1)).takeWhile (· = NSM)).length).foldl (fun st k => st.set (base + 1 + k) c) st

/-- N0 of a pair; `types` are the classes before W1. -/
def bracketPair (types st : List BidiClass) (pair : ℕ × ℕ) : List BidiClass :=
  let (o, cl) := pair
  let e := level % 2
  let inside := ((st.take cl).drop (o + 1)).filterMap strongContrib
  let set (dir : ℕ) : List BidiClass :=
    setMarks types (classOf dir) cl (setMarks types (classOf dir) o ((st.set o (classOf dir)).set cl (classOf dir)))
  if e ∈ inside then set e
  else if inside = [] then st
  else
    let preceding := ((st.take o).reverse.filterMap strongContrib).head?.getD sos
    let opposite := if e = 0 then 1 else 0
    set (if preceding = opposite then opposite else e)

def n0 (bracket : ℕ → Option (ℕ × Bool)) (types : List BidiClass) (cps : List ℕ) (st : List BidiClass) : List BidiClass :=
  ((pairsFrom bracket 0 [] [] (st.zip cps)).mergeSort fun a b => decide (a.1 < b.1 ∨ a.1 = b.1 ∧ a.2 ≤ b.2)).foldl
    (bracketPair sos level types) st

def neutralClass (left right : ℕ) : BidiClass := if left = right then classOf left else classOf (level % 2)

/-- N1 and N2; a run of so many neutrals has been passed, behind the direction `left`. -/
def neutralsFrom : ℕ → ℕ → List BidiClass → List BidiClass
  | left, run, [] => List.replicate run (neutralClass level left eos)
  | left, run, c :: st =>
    match strongContrib c with
    | none => neutralsFrom left (run + 1) st
    | some right => List.replicate run (neutralClass level left right) ++ c :: neutralsFrom right 0 st

/-- I1 and I2 -/
def implicitLevel (base : ℕ) (c : BidiClass) : ℕ :=
  if base % 2 = 0 then
    if c = R then base + 1 else if c = EN ∨ c = AN then base + 2 else base
  else if c = L ∨ c = EN ∨ c = AN then base + 1
  else base

def resolveSequence (bracket : ℕ → Option (ℕ × Bool)) (types : List BidiClass) (cps : List ℕ) (st : List BidiClass) :
    List BidiClass :=
  let st := w3 (w2From (classOf sos) (w1From sos none st))
  let st := w7From (classOf sos) (w6 (w5From none 0 (w4 st)))
  neutralsFrom eos level sos 0 (n0 sos level bracket types cps st)

end

/-! ## Order -/

section
variable (types : ℕ → BidiClass) (paragraphLevel : ℕ)

/-- White space and isolates take the paragraph's level, from the last of the characters given back. -/
def resetBefore : List ℕ → (ℕ → ℕ) → ℕ → ℕ
  | [], levels => levels
  | p :: before, levels =>
    if types p = WS ∨ isIsolateOrPdi (types p) then resetBefore before (Function.update levels p paragraphLevel) else levels

/-- L1; `before` are the characters so far, the last one first. -/
def separatorsFrom : List ℕ → List ℕ → (ℕ → ℕ) → ℕ → ℕ
  | before, [], levels => resetBefore types paragraphLevel before levels
  | before, i :: retained, levels =>
    separatorsFrom (i :: before) retained
      (if types i = B ∨ types i = S then resetBefore types paragraphLevel before (Function.update levels i paragraphLevel)
      else levels)

/-- The runs at a level or above it are reversed; `run` are a run's characters so far, reversed. -/
def reverseFrom (levels : ℕ → ℕ) (lev : ℕ) : List ℕ → List ℕ → List ℕ
  | run, [] => run
  | run, i :: order =>
    if levels i < lev then run ++ i :: reverseFrom levels lev [] order else reverseFrom levels lev (i :: run) order

/-- L2 -/
def reorder (levels : ℕ → ℕ) (retained : List ℕ) : List ℕ :=
  let found := retained.map levels
  let maxLevel := found.foldl max 0
  let floor := ((found.filter (· % 2 ≠ 0)).min?).getD (maxLevel + 1)
  ((List.range (maxLevel + 1)).reverse.filter (floor ≤ ·)).foldl (fun order lev => reverseFrom levels lev [] order) retained

end

/-! ## A paragraph -/

/-- `BidiParagraph`, but for its text. -/
structure BidiParagraph where
  baseDirection : BidiDirection
  paragraphLevel : ℕ
  levels : List ℕ
  order : List ℕ

section
variable (t : Tables) (text : List ℕ)

def nth {α : Type} (l : List α) (d : α) (i : ℕ) : α := l.getD i d

/-- The sequence that starts with a run has its levels set. -/
def resolveFrom (types : List BidiClass) (base : ℕ → ℕ) (resolved : ℕ → BidiClass) (paragraphLevel : ℕ) (retained : List ℕ)
    (runs : List LevelRun) (successor : ℕ → Option ℕ) (levels : ℕ → ℕ) (start : ℕ) : ℕ → ℕ :=
  let run (r : ℕ) : LevelRun := nth runs ⟨0, 0, 0⟩ r
  let chain := runsFrom successor runs.length start
  let seq := chain.flatMap fun r => (retained.take (run r).end_).drop (run r).begin_
  let level := (run start).level
  let firstK := (run start).begin_
  let prevLevel := if 0 < firstK then base (nth retained 0 (firstK - 1)) else paragraphLevel
  let lastK := (run (chain.getLastD start)).end_ - 1
  let nextLevel :=
    if isIsolate (nth types ON (nth retained 0 lastK)) then paragraphLevel
    else if lastK + 1 < retained.length then base (nth retained 0 (lastK + 1))
    else paragraphLevel
  let st := resolveSequence (higherParity level prevLevel) (higherParity level nextLevel) level t.bracket
    (seq.map (nth types ON)) (seq.map (nth text 0)) (seq.map resolved)
  (seq.zip st).foldl (fun levels (i, c) => Function.update levels i (implicitLevel (base i) c)) levels

def analyzeParagraph (base : Option BidiDirection) : BidiParagraph :=
  let types := text.map t.bidiClass
  let paragraphLevel := base.elim ((firstStrong 0 types).getD 0) fun d => if d = .RTL then 1 else 0
  let pdi := pdiMatch types
  let found := explicitFrom paragraphLevel pdi 0 (.start paragraphLevel) types
  let baseLevels : ℕ → ℕ := fun i => (nth found (paragraphLevel, ON) i).1
  let resolved : ℕ → BidiClass := fun i => (nth found (paragraphLevel, ON) i).2
  let retained := (List.range text.length).filter fun i => !isRemoved (nth types ON i)
  let runs := levelRuns baseLevels retained
  let successor (r : ℕ) : Option ℕ :=
    let last := nth retained 0 ((nth runs ⟨0, 0, 0⟩ r).end_ - 1)
    if isIsolate (nth types ON last) then
      ((pdi last).bind fun p => retained.idxOf? p).map fun k =>
        runs.findIdx fun run => decide (run.begin_ ≤ k ∧ k < run.end_)
    else none
  let starts := (List.range runs.length).filter fun r =>
    !(List.range runs.length).any fun r' => successor r' == some r
  let levels := starts.foldl (resolveFrom t text types baseLevels resolved paragraphLevel retained runs successor) baseLevels
  let levels := separatorsFrom (nth types ON) paragraphLevel [] retained levels
  { baseDirection := if paragraphLevel % 2 = 0 then .LTR else .RTL
    paragraphLevel := paragraphLevel
    levels := (List.range text.length).map fun i => levels i % 2 ^ 8
    order := reorder levels retained }

end

/-- `logical_to_visual`; nothing where a character has no place. -/
def logicalToVisual (order : List ℕ) : ℕ → Option ℕ :=
  order.zipIdx.foldl (fun mapping (i, v) => Function.update mapping i (some v)) fun _ => none

end Aegir.Trinket
