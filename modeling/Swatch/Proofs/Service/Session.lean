import Swatch.Proofs.Service.Act

/-!
A service that is asked for one thing after the other. Whatever changes what is declared makes all
that is held void, so that held records are always those that the library would find now. Main
statement: what is answered for a document does not show what the service remembers of earlier calls.
-/

namespace Swatch.Service

variable {service : Service} {texts : String → Int → String} {d : Document}

/-! ### What single calls do to library and cache -/

theorem ensureIndexed_cases (service : Service) (d : Document) :
    (service.ensureIndexed d).value.2 = service ∨
      ∃ l, (service.ensureIndexed d).value.2 = service.withLibrary l := by
  rw [ensureIndexed]
  split
  · exact .inr ⟨_, rfl⟩
  · exact .inl rfl

theorem indexWorkspace_cases {service : Service} {disk : Disk} {root : Path}
    {telling : Log.Telling (Workspace.Report × Service)}
    (htelling : service.indexWorkspace disk root = .ok telling) :
    ∃ l, telling.value.2 = service.withLibrary l := by
  rw [indexWorkspace] at htelling
  cases hsettings : Workspace.ofSettings disk root service.settings with
  | error refusal =>
      rw [hsettings] at htelling
      cases htelling
  | ok workspace =>
      rw [hsettings] at htelling
      cases htelling
      exact ⟨_, rfl⟩

theorem detect_of_not_covers (hcovers : ¬service.settings.covers d.language = true) :
    (service.detect d).value = ([], service) := by
  rw [detect, if_pos (by simpa using hcovers)]
  rfl

theorem detect_cases (service : Service) (d : Document)
    (hcovers : service.settings.covers d.language = true) :
    let indexed := (service.ensureIndexed d).value.2
    let found := (service.detect d).value
    found.2.library = indexed.library ∧
      ((indexed.cache.held? d.uri d.version = some found.1 ∧
        ∀ uri v, found.2.cache.held? uri v = indexed.cache.held? uri v) ∨
      (found.1 = indexed.library.answer d.uri d.text ∧
        found.2.cache = (indexed.cache.get d.uri d.version).2.set d.uri d.version found.1)) := by
  intro indexed found
  have hget := Cache.get_fst indexed.cache d.uri d.version
  cases hheld : indexed.cache.held? d.uri d.version with
  | some records =>
      rw [hheld] at hget
      have hfound : found =
          (records, { indexed with cache := (indexed.cache.get d.uri d.version).2 }) := by
        simp [found, detect, hcovers, indexed, hget]
      rw [hfound]
      exact ⟨rfl, .inl ⟨rfl, fun uri v => indexed.cache.held?_get d.uri uri d.version v⟩⟩
  | none =>
      rw [hheld] at hget
      have hfound : found = (indexed.library.answer d.uri d.text,
          { indexed with
            cache := (indexed.cache.get d.uri d.version).2.set d.uri d.version
              (indexed.library.answer d.uri d.text) }) := by
        simp [found, detect, hcovers, indexed, hget, Library.detect_value]
      rw [hfound]
      exact ⟨rfl, .inr ⟨rfl, rfl⟩⟩

/-! ### Records that are held -/

/-- The records that are held are those that the library finds now in the texts that they are for. -/
def IsCurrent (texts : String → Int → String) (service : Service) : Prop :=
  ∀ uri v records, service.cache.held? uri v = some records →
    records = service.library.answer uri (texts uri v)

theorem isCurrent_withLibrary (service : Service) (l : Library) :
    (service.withLibrary l).IsCurrent texts := by
  intro uri v records hheld
  have hnone : (service.withLibrary l).cache.held? uri v = none :=
    Cache.held?_invalidate service.cache uri v
  rw [hnone] at hheld
  cases hheld

theorem IsCurrent.ensureIndexed (hc : service.IsCurrent texts) (d : Document) :
    (service.ensureIndexed d).value.2.IsCurrent texts := by
  rcases ensureIndexed_cases service d with heq | ⟨l, heq⟩
  · rwa [heq]
  · rw [heq]
    exact isCurrent_withLibrary service l

/-- What a service answers for a document is what its library finds in it now. -/
theorem IsCurrent.answers (hc : service.IsCurrent texts) (htext : d.text = texts d.uri d.version)
    (hcovers : service.settings.covers d.language = true) :
    (service.detect d).value.1 = (service.detect d).value.2.library.answer d.uri d.text := by
  obtain ⟨hlibrary, ⟨hheld, -⟩ | ⟨hfound, -⟩⟩ := detect_cases service d hcovers
  · rw [hlibrary, htext]
    exact hc.ensureIndexed d _ _ _ hheld
  · rw [hlibrary]
    exact hfound

theorem IsCurrent.detect (hc : service.IsCurrent texts) (htext : d.text = texts d.uri d.version) :
    (service.detect d).value.2.IsCurrent texts := by
  by_cases hcovers : service.settings.covers d.language = true
  · have hanswer := hc.answers htext hcovers
    obtain ⟨hlibrary, hcases⟩ := detect_cases service d hcovers
    intro uri version records hheld
    rcases hcases with ⟨-, hsame⟩ | ⟨-, hset⟩
    · rw [hsame] at hheld
      rw [hlibrary]
      exact hc.ensureIndexed d uri version records hheld
    · rw [hset, Cache.held?_set] at hheld
      split at hheld
      · rename_i huri
        split at hheld
        · rename_i hversion
          obtain rfl := Option.some.inj hheld
          rw [hanswer, huri, ← hversion, htext]
        · simp at hheld
      · rw [Cache.held?_get] at hheld
        rw [hlibrary]
        exact hc.ensureIndexed d uri version records hheld
  · rwa [detect_of_not_covers hcovers]

/-! ### Calls one after the other -/

inductive Call where
  | detect (d : Document)
  | ensure (d : Document)
  | index (d : Document)
  | remove (uri : String)
  | indexWorkspace (disk : Disk) (root : Path)

/-- A service after a call. If the patterns of a workspace are refused, nothing happens. -/
def call (service : Service) : Call → Service
  | .detect d => (service.detect d).value.2
  | .ensure d => (service.ensureIndexed d).value.2
  | .index d => (service.index d).value
  | .remove uri => service.remove uri
  | .indexWorkspace disk root =>
      match service.indexWorkspace disk root with
      | .ok telling => telling.value.2
      | .error _ => service

def callAll (service : Service) (calls : List Call) : Service :=
  calls.foldl call service

theorem settings_ensureIndexed (service : Service) (d : Document) :
    (service.ensureIndexed d).value.2.settings = service.settings := by
  rcases ensureIndexed_cases service d with heq | ⟨l, heq⟩
  · rw [heq]
  · rw [heq]
    rfl

theorem settings_call (service : Service) (c : Call) :
    (service.call c).settings = service.settings := by
  cases c with
  | detect d =>
      by_cases hcovers : service.settings.covers d.language = true
      · rw [call, ← settings_ensureIndexed service d]
        simp only [detect, hcovers]
        simp only [Bool.not_true, Bool.false_eq_true, if_false, Log.Telling.value_bind]
        split
        all_goals rfl
      · rw [call, detect_of_not_covers hcovers]
  | ensure d => exact settings_ensureIndexed service d
  | index d => rfl
  | remove uri => rfl
  | indexWorkspace disk root =>
      rw [call]
      split
      · rename_i telling htelling
        obtain ⟨l, heq⟩ := indexWorkspace_cases htelling
        rw [heq]
        rfl
      · rfl

theorem IsCurrent.call (hc : service.IsCurrent texts) (c : Call)
    (htext : ∀ d, c = .detect d → d.text = texts d.uri d.version) :
    (service.call c).IsCurrent texts := by
  cases c with
  | detect d => exact hc.detect (htext d rfl)
  | ensure d => exact hc.ensureIndexed d
  | index d => exact isCurrent_withLibrary service _
  | remove uri => exact isCurrent_withLibrary service _
  | indexWorkspace disk root =>
      rw [Service.call]
      split
      · rename_i telling htelling
        obtain ⟨l, heq⟩ := indexWorkspace_cases htelling
        rw [heq]
        exact isCurrent_withLibrary service l
      · exact hc

theorem isCurrent_ofSettings (s : Settings) : (ofSettings s).IsCurrent texts :=
  fun _ _ _ hheld => by cases hheld

theorem callAll_induction {P : Service → Prop} {calls : List Call} (hinitial : P service)
    (hcall : ∀ service c, c ∈ calls → P service → P (service.call c)) :
    P (service.callAll calls) := by
  induction calls generalizing service with
  | nil => exact hinitial
  | cons c rest ih =>
      refine ih (hcall service c (List.mem_cons_self ..) hinitial) ?_
      intro service' c' hmem
      exact hcall service' c' (List.mem_cons_of_mem c hmem)

/-- Whatever a service was asked for before, it answers for a document just what its library finds
in the text then: neither records that are held nor a version that is indexed already make a
difference. -/
theorem detect_callAll (s : Settings) (texts : String → Int → String) (calls : List Call)
    (hcalls : ∀ d, .detect d ∈ calls → d.text = texts d.uri d.version) (d : Document)
    (htext : d.text = texts d.uri d.version) (hcovers : s.covers d.language = true) :
    let found := (((ofSettings s).callAll calls).detect d).value
    found.1 = found.2.library.answer d.uri d.text := by
  have hsettings : ((ofSettings s).callAll calls).settings = s := by
    refine callAll_induction (P := fun service => service.settings = s) rfl ?_
    intro service c _ heq
    rw [settings_call, heq]
  have hcurrent : ((ofSettings s).callAll calls).IsCurrent texts := by
    refine callAll_induction (isCurrent_ofSettings s) ?_
    intro service c hmem hc
    exact hc.call c fun d heq => hcalls d (heq ▸ hmem)
  exact hcurrent.answers htext (by rwa [hsettings])

def twoVersions (uri : String) (version : Int) : String :=
  if uri = "page" then "var(--a)"
  else if version = 1 then ":root\x7b--a:#fff\x7d" else ":root\x7b--a:#000\x7d"

def page : Document := ⟨"page", 1, "html", twoVersions "page" 1⟩

def theme (version : Int) : Document := ⟨"theme", version, "css", twoVersions "theme" version⟩

/-- The page is answered for while nothing is declared, after its stylesheet was edited, and once the
stylesheet was put back to its first version. -/
def revisions : List Call :=
  [.detect page, .ensure (theme 1), .ensure (theme 2), .detect page, .ensure (theme 1), .detect page,
    .ensure (theme 1)]

theorem detect_callAll_revisions :
    let found := (((ofSettings .default).callAll revisions).detect page).value
    (∀ d, .detect d ∈ revisions → d.text = twoVersions d.uri d.version) ∧
      page.text = twoVersions page.uri page.version ∧
      Settings.default.covers page.language = true ∧
      found.1 = found.2.library.answer page.uri page.text ∧ found.1.map (·.css) = ["rgb(255, 255, 255)"] := by
  have hcalls : ∀ d, .detect d ∈ revisions → d.text = twoVersions d.uri d.version := by
    intro d hmem
    simp only [revisions, List.mem_cons, Call.detect.injEq, reduceCtorEq, List.not_mem_nil, or_false,
      false_or, or_self] at hmem
    rw [hmem]
    rfl
  have hcovers : Settings.default.covers page.language = true := by decide
  exact ⟨hcalls, rfl, hcovers, detect_callAll .default twoVersions revisions hcalls page rfl hcovers,
    by decide +kernel⟩

end Swatch.Service
