import Mathlib.Data.ENat.Basic

/-!
# The cache simulator

The functions of `csim.c`. A set is the list of its lines, so `E` is its length. A trace
line is an operation with the set index and the tag that `simulate` decodes from its
address.

The counters of the source are of type `int`, and all of them only count upwards from `0`.
They are natural numbers here, with the largest one allowed a parameter, `⊤` for none :
a counter that would pass it overflows, which C leaves undefined. So it does the index of
`find_lru_line` when no line has a positive `usage`, and a set index out of range. All
three are `none`.
-/

namespace ClassProjects

namespace Csim

/-- The largest `int`. -/
def intMax : ℕ :=
  2 ^ 31 - 1

/-- `Line`. -/
structure Line where
  valid : Bool
  tag : UInt64
  usage : ℕ
deriving DecidableEq

/-- The operations of a trace : `I` is an instruction load, the others access data. -/
inductive Op
  | I | L | S | M
deriving DecidableEq

/-- `Set_create` : `E` invalid lines. -/
def setCreate (E : ℕ) : List Line :=
  List.replicate E ⟨false, 0, 0⟩

/-- `Cache_create`, with `S` sets. -/
def cacheCreate (S E : ℕ) : List (List Line) :=
  List.replicate S (setCreate E)

/-- `find_line`, `none` for `-1`. -/
def findLine (lines : List Line) (tag : UInt64) : Option ℕ :=
  lines.findIdx? fun l => l.valid && l.tag = tag

/-- `find_empty_line`, `none` for `-1`. -/
def findEmptyLine (lines : List Line) : Option ℕ :=
  lines.findIdx? fun l => !l.valid

/-- The loop of `find_lru_line` from line `i` on. -/
def lruScan (i max : ℕ) (m : Option ℕ) : List Line → Option ℕ
  | [] => m
  | l :: lines =>
    if l.usage > max then lruScan (i + 1) l.usage (some i) lines else lruScan (i + 1) max m lines

/-- `find_lru_line`, `none` if `m` was never assigned. -/
def findLruLine (lines : List Line) : Option ℕ :=
  lruScan 0 0 none lines

/-- `a + b`, if no `int` overflows. -/
def addInt (max : ℕ∞) (a b : ℕ) : Option ℕ :=
  if ((a + b : ℕ) : ℕ∞) ≤ max then some (a + b) else none

/-- Update the usage : count every line up, and reset line `i`. -/
def updateUsage (max : ℕ∞) (i : ℕ) (lines : List Line) : Option (List Line) :=
  (lines.mapM fun l => (addInt max l.usage 1).map fun u => { l with usage := u }).map fun lines =>
    lines.modify i fun l => { l with usage := 0 }

/-- The first part of `memory_op` : `r`, the index `i` of the line that holds the tag, and
the lines once it does. -/
def selectLine (lines : List Line) (tag : UInt64) : Option (ℕ × ℕ × List Line) :=
  match findLine lines tag with
  | some i => some (0, i, lines)
  | none =>
    match findEmptyLine lines with
    | some i => some (1, i, lines.modify i fun l => { l with valid := true, tag := tag })
    | none => (findLruLine lines).map fun i => (2, i, lines.modify i fun l => { l with tag := tag })

/-- `memory_op` : its result code and the set after it. -/
def memoryOp (max : ℕ∞) (lines : List Line) (tag : UInt64) (op : Op) :
    Option (ℕ × List Line) := do
  let (r, i, lines) ← selectLine lines tag
  let lines ← updateUsage max i lines
  some (if op = .M then r + 3 else r, lines)

/-- A decoded line of the trace. -/
structure Access where
  op : Op
  set : ℕ
  tag : UInt64
deriving DecidableEq

/-- The cache and the counters `u`, `v` and `w` of `simulate`. -/
structure Sim where
  sets : List (List Line)
  u : ℕ
  v : ℕ
  w : ℕ
deriving DecidableEq

/-- What the `switch` adds to the three counters. -/
def tally : ℕ → ℕ × ℕ × ℕ
  | 0 => (1, 0, 0)
  | 1 => (0, 1, 0)
  | 2 => (0, 1, 1)
  | 3 => (2, 0, 0)
  | 4 => (1, 1, 0)
  | 5 => (1, 1, 1)
  | _ => (0, 0, 0)

/-- One line of the trace. -/
def simStep (max : ℕ∞) (sim : Sim) (a : Access) : Option Sim :=
  if a.op = .I then some sim
  else do
    let set ← sim.sets[a.set]?
    let (r, set) ← memoryOp max set a.tag a.op
    let u ← addInt max sim.u (tally r).1
    let v ← addInt max sim.v (tally r).2.1
    let w ← addInt max sim.w (tally r).2.2
    some ⟨sim.sets.set a.set set, u, v, w⟩

/-- `simulate` on a cache : the counters at its end are `*h`, `*m` and `*e`. -/
def simulate (max : ℕ∞) (cache : List (List Line)) (trace : List Access) : Option Sim :=
  trace.foldlM (simStep max) ⟨cache, 0, 0, 0⟩

end Csim

end ClassProjects
