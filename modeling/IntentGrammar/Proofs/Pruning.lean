import IntentGrammar.Proofs.PlainSearch

/-!
# Positions that are dropped

A series drops the positions from which the parts that are left cannot be placed any more.  This
module shows that nothing is lost that way.  `Utterance.viable n` keeps the positions behind which
`n` further tokens can be placed; a frontier may be thinned to them before a part is placed behind
it, if the part takes enough tokens (`Utterance.viable_behind`), and parts that cannot be placed
have no ends (`Utterance.plainPartEnds_eq_nil`).
-/

namespace IntentGrammar

namespace Utterance

open Ends

variable (U : Utterance)

/-- `n` further tokens can be placed behind a position. -/
def leaves (n pos : Nat) : Bool := decide (pos + n ≤ U.size)

/-- The entries behind which `n` further tokens can be placed. -/
def viable (n : Nat) (es : Ends) : Ends := List.filter (fun e => U.leaves n e.1) es

/-- No entry lies behind the last token. -/
def Within (es : Ends) : Prop := ∀ e ∈ es, e.1 ≤ U.size

variable {U}

theorem leaves_iff {n pos : Nat} : U.leaves n pos = true ↔ pos + n ≤ U.size := decide_eq_true_iff

theorem mem_viable {n : Nat} {es : Ends} {e : Nat × Outcome} :
    e ∈ U.viable n es ↔ e ∈ es ∧ e.1 + n ≤ U.size := by
  rw [viable, List.mem_filter, leaves_iff]

theorem viable_cons_of_leaves {n pos : Nat} {o : Outcome} {F : Ends}
    (h : U.leaves n pos = true) : U.viable n ((pos, o) :: F) = (pos, o) :: U.viable n F :=
  List.filter_cons_of_pos h

theorem viable_cons_of_not_leaves {n pos : Nat} {o : Outcome} {F : Ends}
    (h : ¬ U.leaves n pos = true) : U.viable n ((pos, o) :: F) = U.viable n F :=
  List.filter_cons_of_neg h

theorem viable_viable (n : Nat) (es : Ends) : U.viable n (U.viable n es) = U.viable n es := by
  simp [viable]

theorem viable_zero {es : Ends} (h : U.Within es) : U.viable 0 es = es :=
  List.filter_eq_self.2 fun e he => leaves_iff.2 (h e he)

theorem within_viable (n : Nat) (es : Ends) : U.Within (U.viable n es) := fun e he => by
  have := (mem_viable.1 he).2
  omega

/-! ### Within the tokens -/

theorem within_plainEnds {p : Pattern} {s : Nat} (hs : s ≤ U.size) : U.Within (U.plainEnds p s) :=
  fun _ he => ((lists_plainEnds p s).sound he).le_size hs

theorem within_behind {part : Nat → Ends} {F : Ends} (hF : U.Within F)
    (hpart : ∀ pos ≤ U.size, U.Within (part pos)) : U.Within (behind part F) := by
  rintro ⟨q, o⟩ he
  obtain ⟨p, a, b, ha, hb, -⟩ := mem_offersBehind.1 ((Lists.offerAll _).sound he)
  exact hpart p (hF _ ha) (q, b) hb

theorem within_skipEnds {pos : Nat} (h : pos ≤ U.size) : U.Within (U.skipEnds pos) := by
  rintro ⟨q, o⟩ he
  obtain ⟨n, hn, rfl, -⟩ := mem_skipEnds.1 he
  exact hn.le_size h

theorem within_led {F : Ends} (hF : U.Within F) (lead : Bool) : U.Within (U.led lead F) := by
  unfold led
  split
  · rw [skipStops_eq]
    exact within_behind hF fun pos => within_skipEnds
  · exact hF

/-! ### Thinning a frontier -/

/-- A part that takes at least `w` tokens can be placed in front of `n` further tokens only behind
the positions that leave room for both. -/
theorem filter_offersBehind {part : Nat → Ends} {w n : Nat}
    (hpart : ∀ pos e, e ∈ part pos → pos + w ≤ e.1) (F : Ends) :
    (offersBehind part (U.viable (w + n) F)).filter (fun e => U.leaves n e.1) =
      (offersBehind part F).filter fun e => U.leaves n e.1 := by
  induction F with
  | nil => rfl
  | cons e F ih =>
    obtain ⟨pos, o⟩ := e
    have hcons : ∀ F' : Ends, offersBehind part ((pos, o) :: F') =
        (part pos).map (fun e' => (e'.1, o.andThen e'.2)) ++ offersBehind part F' := fun _ => rfl
    by_cases hv : U.leaves (w + n) pos = true
    · rw [viable_cons_of_leaves hv, hcons, hcons, List.filter_append, List.filter_append, ih]
    · -- the entry is dropped on the left, and on the right all that is offered behind it
      have hnone : ((part pos).map fun e' => (e'.1, o.andThen e'.2)).filter
          (fun e => U.leaves n e.1) = [] := by
        rw [List.filter_eq_nil_iff]
        intro e he hl
        obtain ⟨e', he', rfl⟩ := List.mem_map.1 he
        have hwidth := hpart pos e' he'
        rw [leaves_iff] at hv hl
        dsimp only at hl
        omega
      rw [viable_cons_of_not_leaves hv, hcons, List.filter_append, hnone, List.nil_append, ih]

theorem viable_behind {part : Nat → Ends} {w n : Nat}
    (hpart : ∀ pos e, e ∈ part pos → pos + w ≤ e.1) (F : Ends) :
    U.viable n (behind part (U.viable (w + n) F)) = U.viable n (behind part F) := by
  unfold viable behind
  rw [filter_offerAll ascending_nil, filter_offerAll ascending_nil]
  exact congrArg (offerAll · _) (filter_offersBehind hpart F)

theorem viable_skipStops (n : Nat) (F : Ends) :
    U.viable n (U.skipStops (U.viable n F)) = U.viable n (U.skipStops F) := by
  have hskip : ∀ pos e, e ∈ U.skipEnds pos → pos + 0 ≤ e.1 := by
    rintro pos ⟨q, o⟩ he
    obtain ⟨k, -, rfl, -⟩ := mem_skipEnds.1 he
    exact Nat.le_add_right _ _
  have h := viable_behind (U := U) (n := n) hskip F
  rwa [Nat.zero_add, ← skipStops_eq, ← skipStops_eq] at h

/-- Frontiers that agree where it matters still agree after stopwords are skipped. -/
theorem viable_led_congr {n : Nat} {F F' : Ends} (h : U.viable n F' = U.viable n F)
    (lead : Bool) : U.viable n (U.led lead F') = U.viable n (U.led lead F) := by
  unfold led
  split
  · rw [← viable_skipStops, h, viable_skipStops]
  · exact h

theorem minWidth_le_of_mem {p : Pattern} {pos : Nat} {e : Nat × Outcome}
    (h : e ∈ U.plainEnds p pos) : pos + p.minWidth ≤ e.1 :=
  ((lists_plainEnds p pos).sound h).minWidth_le

/-- ... and after a part is placed behind them. -/
theorem viable_behind_congr {p : Pattern} {ps : List Pattern} {F F' : Ends}
    (h : U.viable (Pattern.totalWidth (p :: ps)) F' = U.viable (Pattern.totalWidth (p :: ps)) F) :
    U.viable (Pattern.totalWidth ps) (behind (U.plainEnds p) F') =
      U.viable (Pattern.totalWidth ps) (behind (U.plainEnds p) F) := by
  have hwidth : ∀ pos e, e ∈ U.plainEnds p pos → pos + p.minWidth ≤ e.1 := fun _ _ =>
    minWidth_le_of_mem
  rw [Pattern.totalWidth] at h
  rw [← viable_behind hwidth, h, viable_behind hwidth]

theorem lists_self (F : Ends) : F.Lists fun p o => (p, o) ∈ F :=
  ⟨id, fun h => ⟨_, h, le_rfl⟩⟩

/-- Parts for which there is no room have no ends. -/
theorem plainPartEnds_eq_nil {lead : Bool} {ps : List Pattern} {F : Ends} (hF : U.Within F)
    (h : U.viable (Pattern.totalWidth ps) F = []) : U.plainPartEnds lead ps F = [] := by
  -- an end would come from an entry with room for all the parts, and there is none
  refine List.eq_nil_iff_forall_not_mem.2 fun e he => ?_
  have hlists := lists_plainPartEnds (U := U) lead ps (fun p _ => lists_plainEnds p) (lists_self F)
  obtain ⟨s, a, b, ha, hall, -⟩ := hlists.sound he
  have hwidth := hall.totalWidth_le
  have hsize := hall.le_size (hF _ ha)
  have hmem : (s, a) ∈ U.viable (Pattern.totalWidth ps) F :=
    mem_viable.2 ⟨ha, by dsimp only; omega⟩
  rw [h] at hmem
  exact List.not_mem_nil hmem

/-! ### What the search offers -/

theorem extend_eq (rest : Nat) (o : Outcome) (found es : Ends) :
    U.extend rest o found es =
      offerAll ((found.map fun e => (e.1, o.andThen e.2)).filter fun e => U.leaves rest e.1)
        es := by
  unfold extend offerAll
  induction found generalizing es with
  | nil => rfl
  | cons e found ih =>
    rw [List.foldl_cons, ih, List.map_cons]
    by_cases hl : U.leaves rest e.1 = true
    · rw [List.filter_cons_of_pos (by exact hl), List.foldl_cons,
        if_neg (not_lt.2 (leaves_iff.1 hl))]
    · rw [List.filter_cons_of_neg (by exact hl), if_pos (not_le.1 (mt leaves_iff.2 hl))]

variable (U) in
/-- The ends of a part behind a frontier, added to those found so far, without those that leave no
room for `rest` further tokens. -/
def placed (part : Nat → Ends) (rest : Nat) (frontier es : Ends) : Ends :=
  offerAll ((offersBehind part frontier).filter fun e => U.leaves rest e.1) es

theorem placed_cons (part : Nat → Ends) (rest pos : Nat) (o : Outcome) (frontier es : Ends) :
    U.placed part rest ((pos, o) :: frontier) es =
      U.placed part rest frontier (U.extend rest o (part pos) es) := by
  rw [extend_eq, placed, placed, ← offerAll_append, ← List.filter_append]
  rfl

/-- What is placed behind the viable part of a frontier is the viable part of what the plain search
places. -/
theorem placed_viable {p : Pattern} {ps : List Pattern} {F : Ends} :
    U.placed (U.plainEnds p) (Pattern.totalWidth ps) (U.viable (Pattern.totalWidth (p :: ps)) F)
        [] = U.viable (Pattern.totalWidth ps) (behind (U.plainEnds p) F) := by
  have hwidth : ∀ pos e, e ∈ U.plainEnds p pos → pos + p.minWidth ≤ e.1 := fun _ _ =>
    minWidth_le_of_mem
  unfold viable behind
  rw [filter_offerAll ascending_nil, ← filter_offersBehind hwidth F]
  rfl

end Utterance

end IntentGrammar
