import IntentGrammar.Search.Outcome
import IntentGrammar.Pattern
import Std.Data.TreeMap

/-!
# Progress of a search

A search counts its steps and remembers, for every node and start position, the ends it has
found.  It stops early when it has taken more steps than it may, or when it comes upon a foreign
value; the steps taken up to then still count.

`remembering` is the rule of memory: ask what is remembered, otherwise take a step, work the ends
out and remember them.
-/

namespace IntentGrammar.Search

/-- A node, by its label, and a start position. -/
abbrev Spot := Nat × Nat

/-- Spots are ordered by node and then by position. -/
def compareSpots : Spot → Spot → Ordering := compareLex (compareOn Prod.fst) (compareOn Prod.snd)

instance : Std.TransCmp compareSpots := inferInstanceAs (Std.TransCmp (compareLex _ _))

instance : Std.LawfulEqCmp compareSpots where
  eq_of_compare := by
    rintro ⟨a, b⟩ ⟨c, d⟩ h
    simp only [compareSpots, compareLex, compareOn, Ordering.then_eq_eq, Nat.compare_eq_eq] at h
    simp [h]

/-- What is remembered. -/
abbrev Memory := Std.TreeMap Spot Ends compareSpots

/-- How far a search has come. -/
structure Progress where
  steps : Nat
  memory : Memory

/-- Why a search stops early. -/
inductive Stop where
  /-- More steps were taken than allowed. -/
  | exhausted
  /-- A value was reached that is no pattern. -/
  | foreign (e : NotPattern)

end Search

/-- A computation that makes progress and may stop early. -/
abbrev Search := EStateM Search.Stop Search.Progress

namespace Search

/-- Take `count` steps, and stop if that is more than the limit allows. -/
def tick (limit : Option Nat) (count : Nat) : Search Unit := fun s =>
  let s := { s with steps := s.steps + count }
  if limit.any (· < s.steps) then .error .exhausted s else .ok () s

/-- The remembered ends of a spot, or else those that `work` finds, at the cost of a step. -/
def remembering (limit : Option Nat) (spot : Spot) (work : Search Ends) : Search Ends := do
  match (← get).memory[spot]? with
  | some ends => return ends
  | none =>
    tick limit 1
    let ends ← work
    modify fun s => { s with memory := s.memory.insert spot ends }
    return ends

end Search

end IntentGrammar
