import IntentGrammar.Template.Compile
import Mathlib.Data.List.Induction

/-!
# What items are built into

Building a pattern hands out labels, so the patterns of an item depend on the items in front of
it.  With the labels forgotten they do not: `Item.plain?` is the pattern of one item, and the body
of a phrase is made of these, item by item (`Item.plainAll_buildAll`).

A tag collects the texts that the assignments give to its name, in order (`Tag.get?_collect`).
-/

namespace IntentGrammar

namespace Pattern

theorem plain_optionally (label : Nat) (p : Pattern) :
    (p.optionally label).plain = p.plain.optionally 0 := by
  cases p <;> rfl

end Pattern

/-! ### Patterns -/

namespace Template

open Pattern

namespace Atom

/-- The pattern of an atom, with all labels forgotten. -/
def plain : Atom → Pattern
  | .word literal optional => .word 0 literal optional
  | .wildcard optional => .wildcard 0 optional
  | .variants short long optional => .choice 0 [.word 0 short false, .word 0 long false] optional

/-- The pattern of an option, with all labels forgotten. -/
def plainOption : List Atom → Pattern
  | [a] => a.plain
  | as => .series 0 (as.map plain)

theorem plain_build (next : Nat) (a : Atom) : (a.build next).1.plain = a.plain := by
  cases a <;> rfl

theorem plainAll_buildAll (next : Nat) (as : List Atom) :
    plainAll (buildAll next as).1 = as.map plain := by
  induction as generalizing next with
  | nil => rfl
  | cons a as ih => simp only [buildAll, plainAll, plain_build, ih, List.map_cons]

theorem plain_buildOption (next : Nat) (as : List Atom) :
    (buildOption next as).1.plain = plainOption as := by
  match as with
  | [] => rfl
  | [a] => exact plain_build next a
  | a :: b :: as => simp only [buildOption, Pattern.plain, plainAll_buildAll, plainOption]

theorem plainAll_buildOptions (next : Nat) (options : List (List Atom)) :
    plainAll (buildOptions next options).1 = options.map plainOption := by
  induction options generalizing next with
  | nil => rfl
  | cons o options ih =>
    simp only [buildOptions, plainAll, plain_buildOption, ih, List.map_cons]

end Atom

namespace Item

/-- The pattern inside a slot, with all labels forgotten. -/
def plainInner (optional : Bool) : Option (String × Pattern) → Pattern
  | none => .wildcard 0 optional
  | some (_, p) => if optional then p.plain.optionally 0 else p.plain

/-- The pattern of an item, with all labels forgotten; a tag block has none. -/
def plain? : Item → Option Pattern
  | .tags _ => none
  | .atom a => some a.plain
  | .group options optional => some (.choice 0 (options.map Atom.plainOption) optional)
  | .slot name optional entity =>
    some (.slot 0 name (plainInner optional entity) (entity.map Prod.fst))

theorem plain_buildSlot (next : Nat) (name : String) (optional : Bool)
    (entity : Option (String × Pattern)) :
    (buildSlot next name optional entity).1.plain =
      .slot 0 name (plainInner optional entity) (entity.map Prod.fst) := by
  match entity, optional with
  | none, _ => rfl
  | some (kind, p), true => exact congrArg (Pattern.slot 0 name · _) (plain_optionally (next + 1) p)
  | some (kind, p), false => rfl

/-- **What a body is made of**: the patterns of the items, one after the other. -/
theorem plainAll_buildAll (next : Nat) (items : List Item) :
    plainAll (buildAll next items).1 = items.filterMap plain? := by
  induction items generalizing next with
  | nil => rfl
  | cons item items ih =>
    cases item with
    | tags es => exact ih next
    | atom a => simp only [buildAll, plainAll, Atom.plain_build, ih, List.filterMap_cons, plain?]
    | group options optional =>
      simp only [buildAll, plainAll, Pattern.plain, Atom.plainAll_buildOptions, ih,
        List.filterMap_cons, plain?]
    | slot name optional entity =>
      simp only [buildAll, plainAll, plain_buildSlot, ih, List.filterMap_cons, plain?]

end Item

end Template

/-! ### Tags -/

namespace Tag

/-- The texts that some assignments give to a name, in order. -/
def textsFor (name : String) (assignments : List (String × String)) : List String :=
  (assignments.filter (·.1 == name)).map Prod.snd

/-- What a name stands for that was given the texts: for nothing, for its only text or for all. -/
def ofTexts? : List String → Option Tag
  | [] => none
  | [t] => some (.one t)
  | t :: u :: ts => some (.many (t :: u :: ts))

theorem texts_ofTexts? (ts : List String) : (ofTexts? ts).elim [] texts = ts := by
  match ts with
  | [] => rfl
  | [_] => rfl
  | _ :: _ :: _ => rfl

/-- Giving a text once more. -/
theorem ofTexts?_concat (ts : List String) (t : String) :
    ofTexts? (ts ++ [t]) = some ((ofTexts? ts).elim (.one t) (·.again t)) := by
  match ts with
  | [] => rfl
  | [_] => rfl
  | _ :: _ :: _ => rfl

/-- **What a tag collects**: the texts that are assigned to its name, in order. -/
theorem get?_collect (assignments : List (String × String)) (name : String) :
    (collect assignments).get? name = ofTexts? (textsFor name assignments) := by
  induction assignments using List.reverseRecOn with
  | nil => rfl
  | append_singleton assignments e ih =>
    have hgive : collect (assignments ++ [e]) = give (collect assignments) e.1 e.2 :=
      List.foldl_append
    rw [hgive, give, Table.get?_put]
    by_cases hname : e.1 = name
    · have htexts : textsFor name (assignments ++ [e]) = textsFor name assignments ++ [e.2] := by
        simp [textsFor, hname]
      rw [if_pos hname, hname, ih, htexts, ofTexts?_concat]
      cases ofTexts? (textsFor name assignments) <;> rfl
    · have htexts : textsFor name (assignments ++ [e]) = textsFor name assignments := by
        simp [textsFor, hname]
      rw [if_neg hname, ih, htexts]

end Tag

end IntentGrammar
