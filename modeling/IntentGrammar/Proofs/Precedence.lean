import IntentGrammar.Settings

/-!
# What wins among the places of a setting

Settings are built twice, once from the file and the environment and once from the environment
alone, and the second ones are put on top of the first, for the first ones let the file win.  Seen
setting by setting, that is one look-up: the environment, then the file, then the default
(`Builder.Lawful.layered_eq_ok_iff`).  No value goes unread on the way, also one that loses.

This holds for any format of files, and for any builder that keeps the laws of `Builder.Lawful`.
The builder of `Settings.load` does (`Settings.lawful_builder`).

* `Settings.loadWith_exact` : **precedence is exact**, and loading succeeds just if no value in
  either place breaks the rule of its setting;
* `Settings.load_error` : the problems that a failed load reports are those of values that are in
  one of the places.
-/

namespace IntentGrammar

/-! ### Places -/

namespace Setting

theorem mem_all (s : Setting) : s ∈ all := by
  cases s <;> decide

/-- A variable is named for a setting of an application, in letters of either case. -/
def IsVariable (application : String) (s : Setting) (name : String) : Prop :=
  name.toList.map Char.toLower = (application ++ "_" ++ s.name).toList.map Char.toLower

instance (application : String) (s : Setting) (name : String) :
    Decidable (s.IsVariable application name) :=
  inferInstanceAs (Decidable (_ = _))

/-- The variable of a setting has a text, be it an empty one: of those that are named for the
setting the last. -/
def IsSetTo (application : String) (vars : List (String × String)) (s : Setting) (text : String) :
    Prop :=
  ∃ before name after, vars = before ++ (name, text) :: after ∧ s.IsVariable application name ∧
    ∀ e ∈ after, ¬ s.IsVariable application e.1

end Setting

/-- What a folder declares for an application: the values by name in its file, or none where the
file is missing or blank. -/
inductive Format.Declares {α ε : Type} (D : Format α ε) (application : String) (F : Folder) :
    (String → Option α) → Prop
  | missing (h : F.files.get? (application ++ ".yaml") = none) :
    D.Declares application F fun _ => none
  | blank {text : String} {data : α} (h : F.files.get? (application ++ ".yaml") = some text)
      (hread : D.read text = .ok data) (hvacant : D.isVacant data = true) :
    D.Declares application F fun _ => none
  | record {text : String} {data : α} {fields : String → Option α}
      (h : F.files.get? (application ++ ".yaml") = some text) (hread : D.read text = .ok data)
      (hvacant : D.isVacant data = false) (hfields : D.fields? data = some fields) :
    D.Declares application F fields

theorem Format.Declares.configuration_eq {α ε : Type} {D : Format α ε} {application : String}
    {F : Folder} {fields : String → Option α} (h : D.Declares application F fields) :
    D.configuration application F = .ok fields := by
  cases h with
  | missing h => rw [configuration, h]
  | blank h hread hvacant => simp only [configuration, h, Format.fields, hread, if_pos hvacant]
  | record h hread hvacant hfields =>
    simp only [configuration, h, Format.fields, hread, hvacant, hfields, Bool.false_eq_true,
      if_false]

/-! ### Given values -/

namespace Given

variable {α : Type} {a b : Given α} {s : Setting} {v : α}

theorem orElse_of_some (h : a s = some v) : a.orElse b s = some v := by
  rw [orElse, h, Option.orElse_eq_orElse, Option.orElse_some]

theorem orElse_of_none (h : a s = none) : a.orElse b s = b s := by
  rw [orElse, h, Option.orElse_eq_orElse, Option.orElse_none]

theorem eq_some_of_orElse (h : a.orElse b s = some v) : a s = some v ∨ b s = some v := by
  cases ha : a s with
  | none => exact .inr ((orElse_of_none ha).symm.trans h)
  | some w => exact .inl ((orElse_of_some ha).symm.trans h)

end Given

namespace Rules

variable {α : Type} (R : Rules α) {given other : Given α} {s : Setting} {v : α}

/-- A value that keeps to the rule of a setting. -/
def Allows (s : Setting) (v : α) : Prop := ∃ a, R.read s v = .ok a

/-- No value breaks the rule of its setting. -/
def Valid (given : Given α) : Prop := ∀ s v, given s = some v → R.Allows s v

theorem setting_of_some (h : given s = some v) : R.setting given s = R.read s v := by
  rw [setting, h]

theorem setting_of_none (h : given s = none) :
    R.setting given s = .ok (Settings.default.get s) := by
  rw [setting, h]

theorem setting_congr (h : given s = other s) : R.setting given s = R.setting other s := by
  rw [setting, setting, h]

/-- No value breaks its rule just if all settings can be read. -/
theorem valid_iff : R.Valid given ↔ ∀ s, ∃ a, R.setting given s = .ok a := by
  constructor
  · intro h s
    cases hv : given s with
    | none => exact ⟨_, R.setting_of_none hv⟩
    | some v => exact (h s v hv).imp fun a ha => (R.setting_of_some hv).trans ha
  · intro h s v hv
    exact (h s).imp fun a ha => (R.setting_of_some hv).symm.trans ha

end Rules

/-! ### Settings from two places -/

/-- The laws of a builder whose environments are variables by name. -/
structure Builder.Lawful {α ε : Type} (B : Builder α (List (String × String)) ε)
    (application : String) : Prop where
  /-- A value that is given hides that of the environment. -/
  values_of_some {given : Given α} {vars : List (String × String)} {s : Setting} {v : α} :
    given s = some v → B.values given vars s = some v
  /-- A setting that is left open has the text of its variable, if that is set. -/
  values_of_none {given : Given α} {vars : List (String × String)} {s : Setting} :
    given s = none → ∀ v, B.values given vars s = some v ↔
      ∃ text, v = B.ofText text ∧ s.IsSetTo application vars text
  /-- The values of the settings are valid or not one by one. -/
  exists_build_iff {given : Given α} : (∃ built, B.build given = .ok built) ↔ B.Valid given
  /-- Each setting is what its value is read as, or the default without one. -/
  setting_eq {given : Given α} {built : Built} : B.build given = .ok built →
    ∀ s, B.setting given s = .ok (built.settings.get s)
  /-- The settings that were given a value are known. -/
  given_eq {given : Given α} {built : Built} : B.build given = .ok built →
    ∀ s, built.given s = (given s).isSome

theorem Settings.get_override (S : Settings) (other : Built) (s : Setting) :
    (S.override other).get s = if other.given s then other.settings.get s else S.get s := by
  cases s <;> rfl

theorem Settings.eq_of_get {S S' : Settings} (h : ∀ s, S.get s = S'.get s) : S = S' := by
  obtain ⟨language, resourcePath, maxSteps, maxEnumerations⟩ := S
  obtain ⟨language', resourcePath', maxSteps', maxEnumerations'⟩ := S'
  rw [Settings.mk.injEq]
  exact ⟨h .language, h .resourcePath, h .maxSteps, h .maxEnumerations⟩

namespace Builder

variable {α η ε : Type} {B : Builder α η ε} {given : Given α} {environment : η}

theorem layered_eq (B : Builder α η ε) (given : Given α) (environment : η) :
    B.layered given environment =
      match B.build (B.values given environment), B.build (B.values .nothing environment) with
      | .ok first, .ok other => .ok (first.settings.override other)
      | .error e, _ => .error e
      | .ok _, .error e => .error e := by
  rw [layered]
  cases B.build (B.values given environment) <;>
    cases B.build (B.values .nothing environment) <;> rfl

theorem layered_eq_ok {S : Settings} (h : B.layered given environment = .ok S) :
    ∃ first other, B.build (B.values given environment) = .ok first ∧
      B.build (B.values .nothing environment) = .ok other ∧ S = first.settings.override other := by
  rw [layered_eq] at h
  split at h
  · next first other hfirst hother => exact ⟨first, other, hfirst, hother, (Except.ok.inj h).symm⟩
  · cases h
  · cases h

theorem layered_eq_error {e : ε} (h : B.layered given environment = .error e) :
    B.build (B.values given environment) = .error e ∨
      B.build (B.values .nothing environment) = .error e := by
  rw [layered_eq] at h
  split at h
  · cases h
  · next hfirst =>
    cases h
    exact .inl hfirst
  · next hother =>
    cases h
    exact .inr hother

end Builder

namespace Builder.Lawful

variable {α ε : Type} {B : Builder α (List (String × String)) ε} {application : String}
  {given : Given α} {vars : List (String × String)} {S : Settings}

theorem values_nothing_iff (hB : B.Lawful application) {s : Setting} {v : α} :
    B.values .nothing vars s = some v ↔
      ∃ text, v = B.ofText text ∧ s.IsSetTo application vars text :=
  hB.values_of_none rfl v

theorem values_nothing_eq_none_iff (hB : B.Lawful application) {s : Setting} :
    B.values .nothing vars s = none ↔ ∀ text, ¬ s.IsSetTo application vars text := by
  rw [Option.eq_none_iff_forall_ne_some]
  constructor
  · intro h text htext
    exact h _ (hB.values_nothing_iff.2 ⟨text, rfl, htext⟩)
  · intro h v hv
    obtain ⟨text, -, htext⟩ := hB.values_nothing_iff.1 hv
    exact h text htext

/-- The values that settings are built with are looked up in two places. -/
theorem values_eq (hB : B.Lawful application) :
    B.values given vars = given.orElse (B.values .nothing vars) := by
  funext s
  cases hv : given s with
  | some v => rw [hB.values_of_some hv, Given.orElse_of_some hv]
  | none =>
    rw [Given.orElse_of_none hv]
    exact Option.ext fun v => (hB.values_of_none hv v).trans hB.values_nothing_iff.symm

/-- Settings built twice hold what is found by one look-up in the environment and then among the
values that are given. -/
theorem setting_override (hB : B.Lawful application) {first other : Built}
    (hfirst : B.build (B.values given vars) = .ok first)
    (hother : B.build (B.values .nothing vars) = .ok other) (s : Setting) :
    B.setting ((B.values .nothing vars).orElse given) s =
      .ok ((first.settings.override other).get s) := by
  rw [Settings.get_override, hB.given_eq hother]
  cases hv : B.values .nothing vars s with
  | none =>
    have hsame : (B.values .nothing vars).orElse given s = B.values given vars s := by
      rw [Given.orElse_of_none hv, hB.values_eq]
      cases hg : given s with
      | none => rw [Given.orElse_of_none hg, hv]
      | some v => rw [Given.orElse_of_some hg]
    exact (B.setting_congr hsame).trans (hB.setting_eq hfirst s)
  | some v =>
    have hsame : (B.values .nothing vars).orElse given s = B.values .nothing vars s :=
      (Given.orElse_of_some hv).trans hv.symm
    exact (B.setting_congr hsame).trans (hB.setting_eq hother s)

/-- Settings from two places can be built just if no value breaks its rule in either place. -/
theorem exists_layered_iff (hB : B.Lawful application) :
    (∃ S, B.layered given vars = .ok S) ↔ B.Valid given ∧ B.Valid (B.values .nothing vars) := by
  constructor
  · rintro ⟨S, h⟩
    obtain ⟨first, other, hfirst, hother, -⟩ := layered_eq_ok h
    refine ⟨fun s v hv => ?_, hB.exists_build_iff.1 ⟨other, hother⟩⟩
    exact hB.exists_build_iff.1 ⟨first, hfirst⟩ s v (hB.values_of_some hv)
  · rintro ⟨hgiven, hvars⟩
    have hboth : B.Valid (B.values given vars) := by
      intro s v hv
      rw [hB.values_eq] at hv
      exact (Given.eq_some_of_orElse hv).elim (hgiven s v) (hvars s v)
    obtain ⟨first, hfirst⟩ := hB.exists_build_iff.2 hboth
    obtain ⟨other, hother⟩ := hB.exists_build_iff.2 hvars
    exact ⟨first.settings.override other, by rw [layered_eq, hfirst, hother]⟩

/-- Settings from two places are those of one look-up, in the environment and then among the values
that are given; but none of these may be broken, also where it does not count. -/
theorem layered_eq_ok_iff (hB : B.Lawful application) :
    B.layered given vars = .ok S ↔ B.Valid given ∧
      ∀ s, B.setting ((B.values .nothing vars).orElse given) s = .ok (S.get s) := by
  constructor
  · intro h
    obtain ⟨first, other, hfirst, hother, rfl⟩ := layered_eq_ok h
    exact ⟨(hB.exists_layered_iff.1 ⟨_, h⟩).1, hB.setting_override hfirst hother⟩
  · rintro ⟨hgiven, hS⟩
    have hvars : B.Valid (B.values .nothing vars) := by
      intro s v hv
      exact B.valid_iff.2 (fun s => ⟨_, hS s⟩) s v (Given.orElse_of_some hv)
    obtain ⟨S', hS'⟩ := hB.exists_layered_iff.2 ⟨hgiven, hvars⟩
    obtain ⟨first, other, hfirst, hother, rfl⟩ := layered_eq_ok hS'
    rw [hS', Settings.eq_of_get fun s =>
      Except.ok.inj ((hB.setting_override hfirst hother s).symm.trans (hS s))]

end Builder.Lawful

/-! ### The settings of an application -/

theorem Given.ofEnvironment_eq_some_iff {application : String} {vars : List (String × String)}
    {s : Setting} {v : Value} :
    Given.ofEnvironment application vars s = some v ↔
      ∃ text, v = .string text ∧ s.IsSetTo application vars text := by
  rw [Given.ofEnvironment, Option.map_eq_some_iff]
  constructor
  · rintro ⟨⟨name, text⟩, hfind, rfl⟩
    obtain ⟨hname, after, before, hsplit, hafter⟩ := List.find?_eq_some_iff_append.1 hfind
    refine ⟨text, rfl, before.reverse, name, after.reverse, ?_, beq_iff_eq.1 hname, ?_⟩
    · simpa using congrArg List.reverse hsplit
    · intro e he hnamed
      have hother := hafter e (List.mem_reverse.1 he)
      simp only [Bool.not_eq_true', beq_eq_false_iff_ne] at hother
      exact hother hnamed
  · rintro ⟨text, rfl, before, name, after, rfl, hname, hafter⟩
    refine ⟨(name, text), List.find?_eq_some_iff_append.2 ⟨beq_iff_eq.2 hname, after.reverse,
      before.reverse, by simp, ?_⟩, rfl⟩
    intro e he
    simpa [Setting.IsVariable] using hafter e (List.mem_reverse.1 he)

namespace Settings

variable {given : Given} {S : Settings}

/-- Settings are checked one by one. -/
theorem check_eq_ok_iff : check given = .ok S ↔ ∀ s, rules.setting given s = .ok (S.get s) := by
  constructor
  · intro h s
    rw [check] at h
    split at h
    · cases h
      cases s <;> assumption
    · cases h
  · intro h
    simp only [check, h, get]

/-- Whatever is read for the single settings, there are settings that hold it. -/
theorem exists_get (content : (s : Setting) → s.Content) : ∃ S : Settings, S.get = content :=
  ⟨⟨content .language, content .resourcePath, content .maxSteps, content .maxEnumerations⟩,
    funext fun s => by cases s <;> rfl⟩

theorem exists_check_iff : (∃ S, check given = .ok S) ↔ rules.Valid given := by
  rw [rules.valid_iff]
  constructor
  · rintro ⟨S, hS⟩ s
    exact ⟨S.get s, check_eq_ok_iff.1 hS s⟩
  · intro hread
    obtain ⟨content, hcontent⟩ := Classical.axiomOfChoice hread
    obtain ⟨S, rfl⟩ := exists_get content
    exact ⟨S, check_eq_ok_iff.2 hcontent⟩

/-- The problems of settings are those of the values that are given. -/
theorem mem_of_check_eq_error {problems : List Problem} (h : check given = .error problems)
    {p : Problem} : p ∈ problems ↔
      ∃ s v, given s = some v ∧ p.field = s.name ∧ rules.read s v = .error p.rule := by
  have hproblems : problems =
      Setting.all.filterMap fun s => Problem.of? s.name (rules.setting given s) := by
    rw [check] at h
    split at h
    · cases h
    · cases h
      rfl
  rw [hproblems, List.mem_filterMap]
  constructor
  · rintro ⟨s, -, hp⟩
    cases hv : given s with
    | none =>
      rw [rules.setting_of_none hv] at hp
      cases hp
    | some v =>
      rw [rules.setting_of_some hv] at hp
      cases hread : rules.read s v with
      | ok a => rw [hread] at hp; cases hp
      | error rule =>
        rw [hread] at hp
        cases hp
        exact ⟨s, v, hv, rfl, hread⟩
  · rintro ⟨s, v, hv, hfield, hread⟩
    refine ⟨s, s.mem_all, ?_⟩
    rw [rules.setting_of_some hv, hread, Problem.of?, ← hfield]

theorem ne_nil_of_check_eq_error {problems : List Problem} (h : check given = .error problems) :
    problems ≠ [] := by
  rintro rfl
  have hvalid : rules.Valid given := by
    intro s v hv
    cases hread : rules.read s v with
    | ok a => exact ⟨a, hread⟩
    | error rule =>
      exact absurd ((mem_of_check_eq_error (p := ⟨s.name, rule⟩) h).2 ⟨s, v, hv, rfl, hread⟩)
        List.not_mem_nil
  obtain ⟨S, hS⟩ := exists_check_iff.2 hvalid
  cases hS.symm.trans h

theorem values_builder {η : Type} (source : η → Given) (given : Given) (environment : η) :
    (builder source).values given environment = given.orElse (source environment) := rfl

theorem build_eq_ok_iff {η : Type} {source : η → Given} {built : Built} :
    (builder source).build given = .ok built ↔
      check given = .ok built.settings ∧ built.given = fun s => (given s).isSome := by
  obtain ⟨S, known⟩ := built
  simp only [builder]
  cases check given with
  | error problems => simp
  | ok S' => simp [eq_comm]

/-- Where settings cannot be built, values that are given are reported, and nothing else. -/
theorem build_eq_error {η : Type} {source : η → Given} {f : Fault}
    (h : (builder source).build given = .error f) :
    ∃ problems, f = .invalid problems ∧ problems ≠ [] ∧ ∀ p ∈ problems, ∃ s v,
      given s = some v ∧ p.field = s.name ∧ rules.read s v = .error p.rule := by
  simp only [builder] at h
  cases hcheck : check given with
  | ok S => rw [hcheck] at h; cases h
  | error problems =>
    rw [hcheck] at h
    cases h
    exact ⟨problems, rfl, ne_nil_of_check_eq_error hcheck,
      fun p => (mem_of_check_eq_error hcheck).1⟩

/-- The builder of an application keeps the laws. -/
theorem lawful_builder (application : String) :
    (builder (Given.ofEnvironment application)).Lawful application where
  values_of_some := Given.orElse_of_some
  values_of_none hgiven v := by
    rw [values_builder, Given.orElse_of_none hgiven]
    exact Given.ofEnvironment_eq_some_iff
  exists_build_iff {given} := by
    refine Iff.trans ⟨?_, ?_⟩ exists_check_iff
    · rintro ⟨built, h⟩
      exact ⟨built.settings, (build_eq_ok_iff.1 h).1⟩
    · rintro ⟨S, h⟩
      exact ⟨⟨S, fun s => (given s).isSome⟩, build_eq_ok_iff.2 ⟨h, rfl⟩⟩
  setting_eq h := check_eq_ok_iff.1 (build_eq_ok_iff.1 h).1
  given_eq h s := congrFun (build_eq_ok_iff.1 h).2 s

end Settings

/-! ### Loading -/

namespace Settings

variable {α ε : Type} {D : Format α ε} {B : Builder α (List (String × String)) ε}
  {application : String} {F : Folder} {fields : String → Option α}

theorem loadWith_eq {η : Type} {B : Builder α η ε} (h : D.Declares application F fields)
    (environment : η) : loadWith D B application F environment =
      B.layered (fun s => fields s.name) environment := by
  rw [loadWith, h.configuration_eq]
  rfl

/-- **Precedence is exact.**  Let the data in files be read in any format, and settings be built by
any builder that keeps the laws.  Where a folder declares values for an application, its settings
are loaded just if no value breaks the rule of its setting: none that is declared under the name of
a setting, and none that the variable of a setting is set to.  Then each setting is what its
variable says; else what is declared under its name, if anything is; else the default. -/
theorem loadWith_exact (hB : B.Lawful application) (h : D.Declares application F fields)
    (vars : List (String × String)) :
    ((∃ S, loadWith D B application F vars = .ok S) ↔
      (∀ (s : Setting) v, fields s.name = some v → B.Allows s v) ∧
        ∀ (s : Setting) text, s.IsSetTo application vars text → B.Allows s (B.ofText text)) ∧
    ∀ S, loadWith D B application F vars = .ok S → ∀ s : Setting,
      (∀ text, s.IsSetTo application vars text → B.read s (B.ofText text) = .ok (S.get s)) ∧
      ((∀ text, ¬ s.IsSetTo application vars text) →
        (∀ v, fields s.name = some v → B.read s v = .ok (S.get s)) ∧
        (fields s.name = none → S.get s = default.get s)) := by
  rw [loadWith_eq h]
  refine ⟨hB.exists_layered_iff.trans (and_congr_right fun _ => ⟨?_, ?_⟩), fun S hS s => ?_⟩
  · intro hvars s text htext
    exact hvars s _ (hB.values_nothing_iff.2 ⟨text, rfl, htext⟩)
  · intro hvars s v hv
    obtain ⟨text, rfl, htext⟩ := hB.values_nothing_iff.1 hv
    exact hvars s text htext
  · have hread := (hB.layered_eq_ok_iff.1 hS).2 s
    refine ⟨fun text htext => ?_, fun hunset => ?_⟩
    · have hv := hB.values_nothing_iff.2 ⟨text, rfl, htext⟩
      rwa [B.setting_of_some (Given.orElse_of_some hv)] at hread
    · have hlookup : (B.values .nothing vars).orElse (fun s => fields s.name) s = fields s.name :=
        Given.orElse_of_none (hB.values_nothing_eq_none_iff.2 hunset)
      constructor
      · intro v hv
        rwa [B.setting_of_some (hlookup.trans hv)] at hread
      · intro hv
        rw [B.setting_of_none (hlookup.trans hv)] at hread
        exact (Except.ok.inj hread).symm

/-- The file of the pirates: two settings, and something that is none. -/
def pirateText : String := "max_steps: 2000\nlanguage: pirate\nunrelated: true\n"

/-- The folder of the pirates. -/
def pirateFolder : Folder := ⟨[("phrasematch.yaml", pirateText)]⟩

/-- The record of the pirates. -/
def pirateFields : List (Value × Value) :=
  [(.string "max_steps", .int 2000), (.string "language", .string "pirate"),
    (.string "unrelated", .bool true)]

/-- The value is the record of the pirates. -/
def isPirateRecord : Value → Bool
  | .map [(.string a, .int b), (.string c, .string d), (.string e, .bool f)] =>
    (a, b, c, d, e, f) == ("max_steps", 2000, "language", "pirate", "unrelated", true)
  | _ => false

theorem read_format {text : String} {v : Value} (h : Yaml.read text = .ok v) :
    format.read text = .ok v := by
  show (Yaml.read text).mapError Fault.text = _
  rw [h]
  rfl

theorem eq_of_isPirateRecord {v : Value} (h : isPirateRecord v = true) : v = .map pirateFields := by
  unfold isPirateRecord at h
  split at h
  · obtain ⟨rfl, rfl, rfl, rfl, rfl, rfl⟩ := by simpa using h
    rfl
  · cases h

theorem pirateFolder_declares :
    format.Declares "phrasematch" pirateFolder (Value.field? · pirateFields) := by
  have htest : (Yaml.read pirateText).toOption.any isPirateRecord = true := by decide +kernel
  cases hread : Yaml.read pirateText with
  | error f => rw [hread] at htest; cases htest
  | ok v =>
    rw [hread] at htest
    cases eq_of_isPirateRecord htest
    exact .record (by decide) (read_format hread) rfl rfl

/-- An environment that sets the steps. -/
def pirateVars : List (String × String) := [("PATH", "/bin"), ("PHRASEMATCH_MAX_STEPS", "7000")]

/-- The language is that of the record, the steps are those of the environment, and nothing says
how many examples there are. -/
theorem load_pirates :
    ∃ S, load "phrasematch" pirateFolder (.ofEnvironment "phrasematch" pirateVars) = .ok S ∧
      S.language = "pirate" ∧ S.resourcePath = none ∧ S.maxSteps = 7000 ∧
      S.maxEnumerations = 1000 := by
  obtain ⟨hload, hwhich⟩ :=
    loadWith_exact (lawful_builder "phrasematch") pirateFolder_declares pirateVars
  have hfields : ∀ (s : Setting) v, Value.field? s.name pirateFields = some v →
      rules.Allows s v := by
    intro s v hv
    cases s <;> cases hv
    · exact ⟨"pirate", rfl⟩
    · exact ⟨(2000 : Nat), rfl⟩
  have hvars : ∀ (s : Setting) text, s.IsSetTo "phrasematch" pirateVars text →
      rules.Allows s (.string text) := by
    intro s text htext
    have hv := Given.ofEnvironment_eq_some_iff.2 ⟨text, rfl, htext⟩
    cases s <;> cases hv
    exact ⟨(7000 : Nat), rfl⟩
  have hunset : ∀ s : Setting, s ≠ .maxSteps →
      ∀ text, ¬ s.IsSetTo "phrasematch" pirateVars text := by
    intro s hs
    refine (lawful_builder "phrasematch").values_nothing_eq_none_iff.1 ?_
    cases s with
    | maxSteps => exact absurd rfl hs
    | _ => rfl
  obtain ⟨S, hS⟩ := hload.2 ⟨hfields, hvars⟩
  refine ⟨S, hS, ?_, ?_, ?_, ?_⟩
  · have h := ((hwhich S hS .language).2 (hunset _ (by decide))).1 (.string "pirate") rfl
    exact (Except.ok.inj h).symm
  · exact ((hwhich S hS .resourcePath).2 (hunset _ (by decide))).2 rfl
  · have h := (hwhich S hS .maxSteps).1 "7000"
      ⟨[("PATH", "/bin")], "PHRASEMATCH_MAX_STEPS", [], rfl, by decide +kernel, by simp⟩
    exact Except.ok.inj (h.symm.trans rfl)
  · exact ((hwhich S hS .maxEnumerations).2 (hunset _ (by decide))).2 rfl

/-- A load that fails for its values reports some of them, and nothing else. -/
theorem load_error {fields : String → Option Value} (h : format.Declares application F fields)
    {vars : List (String × String)} {f : Fault}
    (hload : load application F (.ofEnvironment application vars) = .error f) :
    ∃ problems, f = .invalid problems ∧ problems ≠ [] ∧
      ∀ p ∈ problems, ∃ (s : Setting) (v : Value), p.field = s.name ∧
        rules.read s v = .error p.rule ∧ (fields s.name = some v ∨
          ∃ text, v = .string text ∧ s.IsSetTo application vars text) := by
  rw [load, loadWith_eq h] at hload
  rcases Builder.layered_eq_error hload with hbuild | hbuild
  · obtain ⟨problems, rfl, hne, hproblems⟩ := build_eq_error hbuild
    refine ⟨problems, rfl, hne, fun p hp => ?_⟩
    obtain ⟨s, v, hv, hfield, hread⟩ := hproblems p hp
    rw [values_builder] at hv
    refine ⟨s, v, hfield, hread, ?_⟩
    exact (Given.eq_some_of_orElse hv).imp_right Given.ofEnvironment_eq_some_iff.1
  · obtain ⟨problems, rfl, hne, hproblems⟩ := build_eq_error hbuild
    refine ⟨problems, rfl, hne, fun p hp => ?_⟩
    obtain ⟨s, v, hv, hfield, hread⟩ := hproblems p hp
    exact ⟨s, v, hfield, hread, .inr (Given.ofEnvironment_eq_some_iff.1 hv)⟩

end Settings

end IntentGrammar
