import Swatch.CommandLine.Run
import Swatch.Proofs.Json.Limit
import Swatch.Proofs.Text.Encoding

/-!
What becomes of settings that are not loaded. Most refusals are problems: a run answers one of these
with its report and the status that it names. Two kinds of files are refused without a problem, and
a run breaks down on them: one whose octets are no text, and one with a text that is beyond a limit
of the reader, be it in the number of digits of a whole number or in the nesting of containers.
-/

namespace Swatch.Settings

variable {d : Disk} {place : Place} {environment : List (String × String)}
  {overrides : List (String × Json)} {r : Refusal}

/-- A text is not beyond the limits of the reader; whether there is a fault in it does not
matter. -/
def WithinLimits (cs : List Char) : Prop :=
  ∀ r, Json.ofChars cs = .error r → r.isLimit = false

/-- If there is a file to be read, its octets are those of a text within the limits of the reader. -/
def Digestible (d : Disk) (place : Place) : Prop :=
  ∀ octets, d.octets place.path = .ok octets →
    ∃ cs, octets = Text.Utf8.encode cs ∧ WithinLimits (Text.unifyNewlines cs)

/-- A refusal that is no problem comes from the file. -/
theorem fileValues_of_load (h : (load d place environment overrides).1 = .error r)
    (hr : r.problem? = none) : fileValues d place = .error r := by
  unfold load at h
  split at h
  · next hfile => rw [hfile, Except.error.inj h]
  · split at h
    · cases h
    · obtain rfl := Except.error.inj h
      simp [Refusal.problem?] at hr

theorem load_of_fileValues (h : fileValues d place = .error r) :
    (load d place environment overrides).1 = .error r := by
  rw [load, h]

theorem digestible_of_octets_error {e : FileError} (h : d.octets place.path = .error e) :
    Digestible d place := by
  intro octets ho
  rw [h] at ho
  cases ho

theorem digestible_iff_of_octets {text : List Char}
    (h : d.octets place.path = .ok (Text.Utf8.encode text)) :
    Digestible d place ↔ WithinLimits (Text.unifyNewlines text) := by
  constructor
  · intro hd
    obtain ⟨text', htext, hlimits⟩ := hd _ h
    rw [← Text.Utf8.decode_eq_ok_iff, Text.Utf8.decode_eq_ok_iff.mpr rfl] at htext
    rwa [Except.ok.inj htext]
  · intro hlimits octets ho
    rw [h] at ho
    exact ⟨text, (Except.ok.inj ho).symm, hlimits⟩

/-- The refusals of a text that are no problems are those for the limits of the reader. -/
theorem exists_parse_iff (path : String) (cs : List Char) :
    (∃ r, parse path cs = .error r ∧ r.problem? = none) ↔ ¬ WithinLimits cs := by
  simp only [WithinLimits, parse]
  cases hjson : Json.ofChars cs with
  | ok v => simp
  | error refusal => cases refusal <;> simp [Refusal.problem?, Json.Refusal.isLimit]

/-- A file is refused without a problem exactly if it is not digestible. -/
theorem exists_fileValues_iff (d : Disk) (place : Place) :
    (∃ r, fileValues d place = .error r ∧ r.problem? = none) ↔ ¬ Digestible d place := by
  cases hfind : d.find place.path with
  | error e =>
    have ho : d.octets place.path = .error e := by
      rw [Disk.octets, hfind]
      rfl
    have hd := digestible_of_octets_error ho
    cases place <;> simp_all [fileValues, Refusal.problem?]
  | ok node =>
    cases ho : d.octets place.path with
    | error e =>
      simp [fileValues, hfind, Disk.read, ho, digestible_of_octets_error ho, Refusal.problem?]
    | ok octets =>
      cases hdecode : Text.Utf8.decode octets with
      | error fault =>
        have hd : ¬ Digestible d place := by
          intro hd
          obtain ⟨cs, hcs, -⟩ := hd octets ho
          cases hdecode.symm.trans (Text.Utf8.decode_eq_ok_iff.mpr hcs)
        simp [fileValues, hfind, Disk.read, ho, hdecode, hd, Refusal.problem?]
      | ok text =>
        have hread : d.read place.path = .ok (Text.unifyNewlines text) := by
          rw [Disk.read, ho]
          dsimp only
          rw [hdecode]
        rw [Text.Utf8.decode_eq_ok_iff.mp hdecode] at ho
        rw [digestible_iff_of_octets ho, ← exists_parse_iff place.path.text]
        cases hparse : parse place.path.text (Text.unifyNewlines text) with
        | error r => simp [fileValues, hfind, hread, hparse, bind, Except.bind]
        | ok v =>
          cases v <;> simp [fileValues, hfind, hread, hparse, bind, Except.bind, pure, Except.pure,
            throw, throwThe, MonadExceptOf.throw, Refusal.problem?]

/-- A text with no run of digits and no number of containers beyond the limits is within them. -/
theorem withinLimits_of_modest {cs : List Char} (hdepth : cs.countP Json.isOpening ≤ Json.maxDepth)
    (hdigits : ∀ run, run <:+: cs → (∀ c ∈ run, c.isDigit) → run.length ≤ Json.maxDigits) :
    WithinLimits cs := by
  intro r hr
  have hgrounded := Json.grounded_of_ofChars hr
  cases r with
  | fault => rfl
  | tooManyDigits count =>
    obtain ⟨hcount, run, hrun, rfl, hall⟩ := hgrounded
    exact absurd (hdigits run hrun hall) (by omega)
  | tooDeep => exact absurd hdepth (by exact Nat.not_le_of_lt hgrounded)

theorem not_withinLimits_brackets {n : Nat} (hn : Json.maxDepth < n) (rest : List Char) :
    ¬ WithinLimits (List.replicate n '[' ++ rest) := fun h => by
  cases h _ (Json.ofChars_brackets hn rest)

theorem not_withinLimits_digits {first : Char} {digits : List Char} (hzero : first ≠ '0')
    (hall : ∀ c ∈ first :: digits, c.isDigit) (hlong : Json.maxDigits ≤ digits.length) :
    ¬ WithinLimits (first :: digits) := fun h => by
  cases h _ (Json.ofChars_digits hzero hall hlong)

/-- Whatever the environment says and the caller asks for, all refusals are problems exactly if what
the file holds can be taken in. -/
theorem forall_problem_iff_digestible (d : Disk) (place : Place)
    (environment : List (String × String)) (overrides : List (String × Json)) :
    (∀ r, (load d place environment overrides).1 = .error r → r.problem? ≠ none) ↔
      Digestible d place := by
  rw [← not_iff_not, ← exists_fileValues_iff]
  push Not
  constructor
  · rintro ⟨r, hload, hr⟩
    exact ⟨r, fileValues_of_load hload hr, hr⟩
  · rintro ⟨r, hfile, hr⟩
    exact ⟨r, load_of_fileValues hfile, hr⟩

end Swatch.Settings

namespace Swatch.CommandLine

open Settings (Digestible)

variable {s : Surroundings} {words : List String} {c : Command} {r : Settings.Refusal}

theorem exitStatus_of_problem? {p : Problem} (h : r.problem? = some p) : p.exitStatus = 2 := by
  cases r <;> cases h <;> rfl

/-- How a run ends whose settings are refused: with the report of the problem, or by a breakdown. -/
def refused (r : Settings.Refusal) (notices : List Log.Notice) : Outcome :=
  match r.problem? with
  | some p => ⟨2, "", p.report ++ "\n", notices, none⟩
  | none => ⟨1, "", "", notices, some (.settings r)⟩

theorem run_bind_of_error {α β : Type} {x : Run α} {stop : Stop} {said said' : Said}
    (h : x.run.run said = (.error stop, said')) (f : α → Run β) :
    (x >>= f).run.run said = (.error stop, said') := by
  rw [ExceptT.run_bind, StateT.run_bind, h]
  rfl

theorem desk_of_refusal {notices : List Log.Notice} (hflags : (c.quiet && c.verbose) = false)
    (hload : Settings.load s.disk (s.place c.config) s.environment [] = (.error r, notices))
    (said : Said) :
    (s.desk c).run.run said =
      match r.problem? with
      | some p =>
        (.error (.status p.exitStatus), ⟨said.lines ++ [.err p.report], said.early ++ notices⟩)
      | none => (.error (.crash (.settings r)), ⟨said.lines, said.early ++ notices⟩) := by
  simp only [Surroundings.desk, hflags, hload]
  cases r.problem? <;> rfl

/-- A run of a command stops where its settings are refused. -/
theorem run_of_refusal {notices : List Log.Notice} (hread : read s.disk words = .ok (.command c))
    (hflags : (c.quiet && c.verbose) = false)
    (hload : Settings.load s.disk (s.place c.config) s.environment [] = (.error r, notices)) :
    run s words = refused r notices := by
  have hdesk := desk_of_refusal hflags hload ⟨[], []⟩
  have hobey : s.obey words = s.perform c := by
    simp only [Surroundings.obey, hread]
  rw [run, hobey, Surroundings.perform, refused]
  cases hp : r.problem? with
  | none =>
    rw [hp] at hdesk
    rw [run_bind_of_error hdesk]
    rfl
  | some p =>
    rw [hp] at hdesk
    dsimp only at hdesk
    rw [exitStatus_of_problem? hp] at hdesk
    rw [run_bind_of_error hdesk]
    change (⟨2, "", "" ++ (p.report ++ "\n"), [] ++ notices, none⟩ : Outcome) = _
    rw [String.empty_append, List.nil_append]

/-- Whatever the environment says and the caller asks for, settings are refused with a problem only,
exactly if what the file holds can be taken in. Then a run of a command whose settings are refused
ends with the report of the problem and the status 2; else the run breaks down. -/
theorem answers_refusals_iff_digestible (s : Surroundings) :
    (∀ (place : Settings.Place) (overrides : List (String × Json)),
      (∀ r, (Settings.load s.disk place s.environment overrides).1 = .error r → r.problem? ≠ none) ↔
        Digestible s.disk place) ∧
    ∀ (words : List String) (c : Command) (r : Settings.Refusal) (notices : List Log.Notice),
      read s.disk words = .ok (.command c) → (c.quiet && c.verbose) = false →
      Settings.load s.disk (s.place c.config) s.environment [] = (.error r, notices) →
      (Digestible s.disk (s.place c.config) →
        ∃ p, r.problem? = some p ∧ run s words = ⟨2, "", p.report ++ "\n", notices, none⟩) ∧
      (¬ Digestible s.disk (s.place c.config) →
        r.problem? = none ∧ run s words = ⟨1, "", "", notices, some (.settings r)⟩) := by
  refine ⟨fun place => Settings.forall_problem_iff_digestible s.disk place s.environment, ?_⟩
  intro words c r notices hread hflags hload
  have hrun := run_of_refusal hread hflags hload
  have hiff := Settings.forall_problem_iff_digestible s.disk (s.place c.config) s.environment []
  rw [hload] at hiff
  constructor
  · intro hd
    obtain ⟨p, hp⟩ := Option.ne_none_iff_exists'.mp (hiff.mpr hd r rfl)
    exact ⟨p, hp, by rw [hrun, refused, hp]⟩
  · intro hd
    have hp : r.problem? = none := by
      by_contra hp
      refine hd (hiff.mp fun r' hr' => ?_)
      obtain rfl := Except.error.inj hr'
      exact hp
    exact ⟨hp, by rw [hrun, refused, hp]⟩

theorem read_operands {g : Grammar} {words : List String}
    (h : ∀ word ∈ words, word ≠ "--" ∧ Grammar.isOptions word = false) :
    g.read words = .ok ⟨[], words⟩ := by
  induction words with
  | nil => rfl
  | cons word rest ih =>
    obtain ⟨⟨hmark, hword⟩, hrest⟩ := List.forall_mem_cons.mp h
    rw [Grammar.read, if_neg hmark, if_neg (by simp [hword]), ih hrest]
    split <;> rfl

def contrastOfWhite : Command :=
  ⟨.contrast "#fff", none, false, false, false⟩

theorem readVerb_contrastOfWhite (d : Disk) :
    readVerb d .contrast ["#fff"] = .ok (.command contrastOfWhite) := by
  rw [readVerb, read_operands (by decide)]
  rfl

theorem read_contrastOfWhite (d : Disk) :
    read d ["contrast", "#fff"] = .ok (.command contrastOfWhite) := by
  have hfind : (Verb.all.find? fun v => v.name = "contrast") = some .contrast := by decide
  rw [read, read_operands (by decide)]
  simp only [Except.mapError, bind, Except.bind, hfind, readVerb_contrastOfWhite]

/-- Surroundings with a file for the settings of these octets. -/
def holding (octets : List UInt8) : Surroundings :=
  ⟨.ofFolder ["work"] (.folder [(Settings.fileName, .file octets)]), [], 0⟩

/-- An array is no object, but it can be taken in. -/
theorem run_holding_array :
    ∃ p : Problem, run (holding [0x5B, 0x5D]) ["contrast", "#fff"] =
      ⟨2, "", p.report ++ "\n", [], none⟩ := by
  have hload : Settings.load (holding [0x5B, 0x5D]).disk ((holding [0x5B, 0x5D]).place none) [] [] =
      (.error (.notAnObject "/work/color-indexer.config.json"), []) := by rfl
  have hd : Digestible (holding [0x5B, 0x5D]).disk ((holding [0x5B, 0x5D]).place none) := by
    have hoctets : (holding [0x5B, 0x5D]).disk.octets ((holding [0x5B, 0x5D]).place none).path =
        .ok (Text.Utf8.encode ['[', ']']) := by rfl
    have hjson : Json.ofChars ['[', ']'] = .ok (.arr []) := by rfl
    refine (Settings.digestible_iff_of_octets hoctets).mpr fun r hr => ?_
    cases hjson.symm.trans hr
  obtain ⟨p, -, hrun⟩ :=
    ((answers_refusals_iff_digestible (holding [0x5B, 0x5D])).2 _ contrastOfWhite _ _
      (read_contrastOfWhite _) rfl hload).1 hd
  exact ⟨p, hrun⟩

/-- The octet begins no character. -/
theorem run_holding_garbled :
    let fault : Settings.Refusal := .notText ⟨.invalidStart, 0xFF, 0, 1⟩
    Settings.load (holding [0xFF]).disk ((holding [0xFF]).place none) [] [] = (.error fault, []) ∧
      fault.problem? = none ∧
      run (holding [0xFF]) ["contrast", "#fff"] = ⟨1, "", "", [], some (.settings fault)⟩ := by
  intro fault
  have hload : Settings.load (holding [0xFF]).disk ((holding [0xFF]).place none) [] [] =
      (.error fault, []) := by rfl
  exact ⟨hload, rfl, run_of_refusal (c := contrastOfWhite) (read_contrastOfWhite _) rfl hload⟩

end Swatch.CommandLine
