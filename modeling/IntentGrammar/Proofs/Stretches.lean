import IntentGrammar.Proofs.Alignment

/-!
# Alignments of a stretch

What a pattern takes depends only on the tokens it takes.  `Utterance.Repeats` says that another
utterance reads a stretch of tokens in the same way, in another place; then it has the same
alignments there (`Utterance.Takes.repeated`).  Where a span was recorded moves along with the
stretch, so the outcomes are not the same, and nothing is said about them.
-/

namespace IntentGrammar.Utterance

/-- Whatever `U` reads from `lo` up to `hi`, `V` reads `k` positions further on. -/
structure Repeats (U V : Utterance) (lo hi k : Nat) : Prop where
  reads : ∀ i key, lo ≤ i → i < hi → U.reads i key = true → V.reads (k + i) key = true
  isStop : ∀ i, lo ≤ i → i < hi → U.isStop i = true → V.isStop (k + i) = true
  lt_size : ∀ i, lo ≤ i → i < hi → i < U.size → k + i < V.size

variable {U V : Utterance} {lo hi k : Nat}

namespace Repeats

theorem stopsAt (h : U.Repeats V lo hi k) {pos n : Nat} (hlo : lo ≤ pos) (hhi : pos + n ≤ hi)
    (hstop : U.StopsAt pos n) : V.StopsAt (k + pos) n := by
  intro i hi
  rw [Nat.add_assoc]
  exact h.isStop (pos + i) (by omega) (by omega) (hstop i hi)

/-- A stretch reads the same wherever the same tokens stand. -/
theorem of_getElem? (hlexicon : V.lexicon = U.lexicon)
    (htokens : ∀ i, lo ≤ i → i < hi → i < U.size → V.tokens[k + i]? = U.tokens[i]?) :
    U.Repeats V lo hi k where
  reads i key hlo hhi hread := by
    have hlt := lt_size_of_reads hread
    unfold Utterance.reads at hread ⊢
    rw [htokens i hlo hhi hlt, hlexicon]
    exact hread
  isStop i hlo hhi hstop := by
    have hlt := lt_size_of_isStop hstop
    unfold Utterance.isStop at hstop ⊢
    rw [htokens i hlo hhi hlt, hlexicon]
    exact hstop
  lt_size i hlo hhi hlt := by
    by_contra hge
    have hnone : V.tokens[k + i]? = none := List.getElem?_eq_none (Nat.not_lt.1 hge)
    rw [htokens i hlo hhi hlt, List.getElem?_eq_none_iff] at hnone
    exact absurd hlt (Nat.not_lt.2 hnone)

end Repeats

theorem TakesAll.repeated_of (h : U.Repeats V lo hi k) {lead : Bool} {ps : List Pattern}
    (hps : ∀ p ∈ ps, ∀ s e o, lo ≤ s → e ≤ hi → U.Takes anyOption p s e o →
      ∃ o', V.Takes anyOption p (k + s) (k + e) o') {s e : Nat} {o : Outcome} (hlo : lo ≤ s)
    (hhi : e ≤ hi) (hall : U.TakesAll anyOption lead ps s e o) :
    ∃ o', V.TakesAll anyOption lead ps (k + s) (k + e) o' := by
  induction ps generalizing lead s e o with
  | nil =>
    obtain ⟨rfl, -⟩ := takesAll_nil.1 hall
    exact ⟨.free, .nil⟩
  | cons p ps ih =>
    obtain ⟨n, m, a, b, hlead, hstop, hp, hrest, -⟩ := takesAll_cons.1 hall
    have hm := hp.le
    have he := hrest.totalWidth_le
    obtain ⟨a', ha'⟩ := hps p List.mem_cons_self _ _ _ (by omega) (by omega) hp
    obtain ⟨b', hb'⟩ := ih (fun q hq => hps q (List.mem_cons_of_mem _ hq)) (by omega) hhi hrest
    rw [← Nat.add_assoc] at ha'
    exact ⟨_, .cons hlead (h.stopsAt hlo (by omega) hstop) ha' hb'⟩

/-- What a pattern takes of a stretch it takes wherever the stretch is repeated. -/
theorem Takes.repeated (h : U.Repeats V lo hi k) {p : Pattern} {s e : Nat} {o : Outcome}
    (hlo : lo ≤ s) (hhi : e ≤ hi) (hp : U.Takes anyOption p s e o) :
    ∃ o', V.Takes anyOption p (k + s) (k + e) o' := by
  induction p using Pattern.node_induction generalizing s e o with
  | word l literal optional =>
    rcases takes_word.1 hp with ⟨hread, rfl, -⟩ | ⟨rfl, rfl, -⟩
    · exact ⟨.free, .word (h.reads s _ hlo hhi hread)⟩
    · exact ⟨.free, .noWord⟩
  | wildcard l optional =>
    rcases takes_wildcard.1 hp with ⟨hlt, hle, -⟩ | ⟨rfl, rfl, -⟩
    · have hlast := h.lt_size (e - 1) (by omega) (by omega) (by omega)
      exact ⟨_, .wildcard (by omega) (by omega)⟩
    · exact ⟨.free, .noWildcard⟩
  | choice l options optional ih =>
    rcases takes_choice.1 hp with ⟨before, p, after, rfl, -, hp⟩ | ⟨rfl, rfl, -, -⟩
    · obtain ⟨o', ho'⟩ := ih p (by simp) hlo hhi hp
      exact ⟨o', .option trivial ho'⟩
    · exact ⟨.free, .noOption trivial⟩
  | series l parts ih =>
    obtain ⟨o', ho'⟩ := TakesAll.repeated_of h (fun p hp _ _ _ => ih p hp) hlo hhi
      (takes_series.1 hp)
    exact ⟨o', .series ho'⟩
  | slot l name inner kind ih =>
    obtain ⟨a, ha, rfl⟩ := takes_slot.1 hp
    obtain ⟨a', ha'⟩ := ih hlo hhi ha
    exact ⟨_, .slot ha'⟩
  | foreign v => exact absurd hp not_takes_foreign

theorem TakesAll.repeated (h : U.Repeats V lo hi k) {lead : Bool} {ps : List Pattern} {s e : Nat}
    {o : Outcome} (hlo : lo ≤ s) (hhi : e ≤ hi) (hall : U.TakesAll anyOption lead ps s e o) :
    ∃ o', V.TakesAll anyOption lead ps (k + s) (k + e) o' :=
  hall.repeated_of h (fun _ _ _ _ _ => Takes.repeated h) hlo hhi

end IntentGrammar.Utterance
