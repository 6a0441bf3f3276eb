import Mathlib.Data.List.Nodup
import Swatch.Proofs.Service.Freshness

/-!
Whether a stylesheet that is indexed may give way to an earlier version of itself. Those who index a
document as it is can only bring it forward, for its version only rises. But a refresh indexes the
document as it was when its records were asked for, and does so in a turn of its own; a later version
may be indexed by then. Main statement: no version that is indexed ever gives way to an earlier one
in a run exactly if no such turn comes too late.
-/

namespace Swatch

open Relation

variable {η ρ : Type}

/-- A host that prepares only some documents. -/
def Host.restrict (h : Host η ρ) (ds : List Document) : Host η ρ :=
  { h with prepare := fun d host => if d ∈ ds then h.prepare d host else none }

theorem Host.Yields.of_restrict {h : Host η ρ} {ds : List Document} {host host' : η}
    {commands : List Command} (hyields : (h.restrict ds).Yields host host' commands) :
    (∃ d ∈ ds, h.prepare d host = some (host', commands)) ∨
      ∃ visit ending?, h.apply visit host = (host', commands, ending?) := by
  cases hyields with
  | @prepare d _ _ hp =>
      have hp : (if d ∈ ds then h.prepare d host else none) = some (host', commands) := hp
      split at hp
      · rename_i hd
        exact .inl ⟨d, hd, hp⟩
      · cases hp
  | @apply visit _ _ ending? ha => exact .inr ⟨visit, ending?, ha⟩

namespace World

variable (h : Host η ρ) {w : World η ρ} {ds : List Document}

theorem proceed_restrict (t k : Nat) {d : Document} (hd : d ∈ ds) (errand : Errand)
    (stage : Stage ρ) (ending : Ending (List ρ)) :
    w.proceed (h.restrict ds) t k d errand stage ending = w.proceed h t k d errand stage ending := by
  cases stage with
  | starting =>
      cases errand with
      | refresh => rfl
      | detection =>
          have hprepare : (h.restrict ds).prepare d w.host = h.prepare d w.host := if_pos hd
          simp only [proceed, beginDetection, hprepare]
  | _ => rfl

theorem resume_restrict (hds : ∀ d ∈ w.documents, d ∈ ds) (t : Nat) :
    w.resume (h.restrict ds) t = w.resume h t := by
  rw [resume, resume]
  split
  · rfl
  · split
    · rename_i d _ hd
      simp only [proceed_restrict h _ _ (hds d (List.mem_of_getElem? hd))]
      rfl
    · rfl

/-- In a turn nothing but a document of the world is prepared. -/
theorem act_restrict (w : World η ρ) (a : Act ρ) :
    w.act (h.restrict w.documents) a = w.act h a := by
  cases a with
  | turn n =>
      simp only [act]
      split
      · rename_i turn _
        cases turn with
        | resume t => exact resume_restrict h (fun d hd => hd) t
        | _ => rfl
      · rfl
  | _ => rfl

end World

/-! ### What becomes of a library -/

namespace Library

/-- Some of these documents are indexed one after the other. -/
def Indexes (ds : List Document) : Library → Library → Prop :=
  ReflTransGen fun l l' => ∃ d ∈ ds, l' = (l.index d).value

variable {l l' : Library} {ds : List Document} {d : Document}

@[simp] theorem indexed_index (l : Library) (d : Document) :
    (l.index d).value.indexed = l.indexed.set d.uri d.version :=
  rfl

theorem indexes_refl (l : Library) : Indexes ds l l :=
  .refl

theorem indexes_index (l : Library) (hd : d ∈ ds) : Indexes ds l (l.index d).value :=
  .single ⟨d, hd, rfl⟩

theorem indexes_of_or (hd : d ∈ ds) (hl : l' = l ∨ l' = (l.index d).value) : Indexes ds l l' := by
  rcases hl with rfl | rfl
  · exact indexes_refl l'
  · exact indexes_index l hd

/-- One of these documents has come to a version. -/
def Reached (ds : List Document) (uri : String) (v : Int) : Prop :=
  ∃ d ∈ ds, d.uri = uri ∧ v ≤ d.version

/-- No version is indexed that none of these documents has come to. -/
def Trails (ds : List Document) (l : Library) : Prop :=
  ∀ uri v, l.indexed.get? uri = some v → Reached ds uri v

theorem Trails.index (hl : l.Trails ds) (hd : Reached ds d.uri d.version) :
    (l.index d).value.Trails ds := by
  intro uri v hv
  rw [indexed_index, Keyed.get?_set] at hv
  split at hv
  · rename_i huri
    obtain rfl := Option.some.inj hv
    rwa [huri]
  · exact hl uri v hv

theorem Indexes.trails (hi : Indexes ds l l') (hl : l.Trails ds) : l'.Trails ds := by
  induction hi with
  | refl => exact hl
  | tail _ hlast ih =>
      obtain ⟨d, hd, rfl⟩ := hlast
      exact ih.index ⟨d, hd, rfl, Int.le_refl _⟩

/-- If no two of the documents have one address, indexing them brings versions forward only. -/
theorem Indexes.le (hi : Indexes ds l l') (hl : l.Trails ds) (hdistinct : (ds.map (·.uri)).Nodup)
    {uri : String} {v : Int} (hv : l.indexed.get? uri = some v) :
    ∃ v', l'.indexed.get? uri = some v' ∧ v ≤ v' := by
  induction hi with
  | refl => exact ⟨v, hv, Int.le_refl v⟩
  | @tail m _ hfirst hlast ih =>
      obtain ⟨d, hd, rfl⟩ := hlast
      obtain ⟨u, hu, hle⟩ := ih
      rw [indexed_index, Keyed.get?_set]
      split
      · rename_i huri
        obtain ⟨d', hd', huri', hle'⟩ := Indexes.trails hfirst hl uri u hu
        obtain rfl : d' = d := List.inj_on_of_nodup_map hdistinct hd' hd (huri'.trans huri)
        exact ⟨d'.version, rfl, Int.le_trans hle hle'⟩
      · exact ⟨u, hu, hle⟩

end Library

namespace Service

open World

variable {s : Settings} {consumer : Consumer} {w w' : Floor} {ds : List Document}

theorem value_prepare (l : Log.Telling Library) (d : Document) :
    (prepare l d).1.value = if l.value.lacks d then (l.value.index d).value else l.value := by
  rw [prepare]
  split <;> rfl

theorem library_ensureIndexed (service : Service) (d : Document) :
    (service.ensureIndexed d).value.2.library = service.library ∨
      (service.ensureIndexed d).value.2.library = (service.library.index d).value := by
  rw [ensureIndexed]
  split
  · exact .inr rfl
  · exact .inl rfl

theorem indexed_indexWorkspace {service : Service} {disk : Disk} {root : Path}
    {telling : Log.Telling (Workspace.Report × Service)}
    (htelling : service.indexWorkspace disk root = .ok telling) :
    telling.value.2.library.indexed = ∅ := by
  rw [indexWorkspace] at htelling
  cases hsettings : Workspace.ofSettings disk root service.settings with
  | error refusal =>
      rw [hsettings] at htelling
      cases htelling
  | ok workspace =>
      rw [hsettings] at htelling
      cases htelling
      rfl

theorem library_detect (service : Service) (d : Document) :
    (service.detect d).value.2.library = service.library ∨
      (service.detect d).value.2.library = (service.library.index d).value := by
  by_cases hcovers : service.settings.covers d.language = true
  · rw [(detect_cases service d hcovers).1]
    exact library_ensureIndexed service d
  · rw [detect_of_not_covers hcovers]
    exact .inl rfl

/-- Those who take the records have nothing indexed but documents as they are. -/
def Act.IsUpToDate (w : Floor) : Act → Prop
  | .floor consumer _ => ∀ visit l,
      Library.Indexes w.documents l.value (consumer.apply visit l).1.value
  | _ => True

theorem indexes_step {free : Bool}
    (htakes : ∀ visit l, Library.Indexes ds l.value (consumer.apply visit l).1.value)
    (hs : Step ((hostFor s consumer).restrict ds) free w w') :
    Library.Indexes ds w.host.value w'.host.value := by
  obtain ⟨hhost, -⟩ | ⟨l, commands, rfl, hl⟩ := hs.held_cases
  · rw [hhost]
    exact Library.indexes_refl _
  · rw [host_obeyAll]
    rcases hl with rfl | hyields
    · exact Library.indexes_refl _
    · obtain ⟨d, hd, hprepare⟩ | ⟨visit, ending?, happly⟩ := hyields.of_restrict
      · have hprepare : (if s.covers d.language then some (prepare w.host d) else none) =
          some (l, commands) := hprepare
        split at hprepare
        · have hvalue := value_prepare w.host d
          rw [Option.some.inj hprepare] at hvalue
          refine Library.indexes_of_or hd ?_
          rw [hvalue]
          split
          · exact .inr rfl
          · exact .inl rfl
        · cases hprepare
      · have htaken := htakes visit w.host
        have happly : consumer.apply visit w.host = (l, commands, ending?) := happly
        rwa [happly] at htaken

theorem indexes_steps
    (htakes : ∀ visit l, Library.Indexes ds l.value (consumer.apply visit l).1.value)
    (hsteps : Steps ((hostFor s consumer).restrict ds) w w') :
    Library.Indexes ds w.host.value w'.host.value := by
  refine steps_induction (P := fun v => Library.Indexes ds w.host.value v.host.value) ?_ hsteps
    (Library.indexes_refl _)
  intro v v' hs hindexes
  exact ReflTransGen.trans hindexes (indexes_step htakes hs)

/-- The computation of a refresh is begun in an act. -/
structure Begins (w : Floor) (a : Act) (y : Computation Record) : Prop where
  turn : ∃ c, a.turn? w = some (.begin c) ∧ w.computations[c]? = some y
  queued : y.state = .queued
  errand : y.errand = .refresh

theorem host_beginComputation {c : Nat} {y : Computation Record}
    (hy : w.computations[c]? = some y) (hqueued : y.state = .queued) :
    (w.beginComputation (hostFor s consumer) c).host.value =
      match y.errand with
      | .refresh => (prepare w.host y.document).1.value
      | .detection => w.host.value := by
  cases herrand : y.errand <;>
    simp [beginComputation, hy, hqueued, herrand, hostFor, host, endComputation]

theorem Begins.library {a : Act} {y : Computation Record} (hb : Begins w a y) :
    (act s w a).host.value = (prepare w.host y.document).1.value := by
  obtain ⟨c, hturn, hy⟩ := hb.turn
  cases a with
  | floor consumer b =>
      cases b with
      | turn n =>
          have hturn : w.turns[n]? = some (.begin c) := hturn
          simp only [act, World.act, hturn, perform]
          rw [host_beginComputation (by exact hy) hb.queued, hb.errand]
      | _ => cases hturn
  | _ => cases hturn

theorem begins_or {n c : Nat} (hturn : w.turns[n]? = some (.begin c)) :
    (w.act (hostFor s consumer) (.turn n)).host.value = w.host.value ∨
      ∃ y, Begins w (.floor consumer (.turn n)) y := by
  simp only [World.act, hturn, perform]
  obtain heq | ⟨y, l, commands, hy, hqueued, -⟩ :=
    World.beginComputation_cases { w with turns := w.turns.eraseIdx n } (hostFor s consumer) c
  · rw [heq]
    exact .inl rfl
  · cases herrand : y.errand with
    | refresh => exact .inr ⟨y, ⟨c, hturn, hy⟩, hqueued, herrand⟩
    | detection =>
        refine .inl ?_
        rw [host_beginComputation hy hqueued, herrand]

/-- An act has the library give up what it knows of a document. -/
def Act.Drops : Act → String → Prop
  | .remove uri', uri => uri = uri'
  | .indexWorkspace _ _, _ => True
  | _, _ => False

theorem library_floor {a : Swatch.Act Record}
    (hup : (Act.floor consumer a).IsUpToDate w) :
    Library.Indexes w.documents w.host.value (w.act (hostFor s consumer) a).host.value ∨
      ∃ y, Begins w (.floor consumer a) y ∧ w.host.value.lacks y.document = true ∧
        (w.act (hostFor s consumer) a).host.value = (w.host.value.index y.document).value := by
  rw [← act_restrict]
  obtain hs | hsteps | ⟨n, c, rfl, hturn, -⟩ | ⟨n, c, -, -, heq⟩ :=
    w.act_cases (h := (hostFor s consumer).restrict w.documents) a
  · exact .inl (indexes_step hup hs)
  · exact .inl (indexes_steps hup hsteps)
  · rw [act_restrict]
    have hbegins : (w.act (hostFor s consumer) (.turn n)).host.value = w.host.value ∨
        ∃ y, Begins w (.floor consumer (.turn n)) y := begins_or hturn
    rcases hbegins with heq | ⟨y, hb⟩
    · rw [heq]
      exact .inl (Library.indexes_refl _)
    · have hlibrary := hb.library (s := s)
      simp only [act, value_prepare] at hlibrary
      split at hlibrary
      · rename_i hlacks
        exact .inr ⟨y, hb, hlacks, hlibrary⟩
      · rw [hlibrary]
        exact .inl (Library.indexes_refl _)
  · rw [heq, (settleComputation_frame ..).2.2]
    exact .inl (Library.indexes_refl _)

theorem indexes_servedAt (w : Floor) (k : Nat) {f : Service → Document → Log.Telling Service}
    (hf : ∀ service d, (f service d).value.library = service.library ∨
      (f service d).value.library = (service.library.index d).value) :
    Library.Indexes w.documents w.host.value (servedAt s w k f).host.value := by
  rw [servedAt]
  split
  · rename_i d hd
    exact Library.indexes_of_or (List.mem_of_getElem? hd) (hf _ d)
  · exact Library.indexes_refl _

/-- In an act documents are indexed as they are, or the computation of a refresh is begun, or
documents are given up. -/
theorem library_cases {a : Act} (hup : a.IsUpToDate w) :
    Library.Indexes w.documents w.host.value (act s w a).host.value ∨
      (∃ y, Begins w a y ∧ w.host.value.lacks y.document = true ∧
        (act s w a).host.value = (w.host.value.index y.document).value) ∨
      ∀ uri, (act s w a).host.value.indexed.get? uri = w.host.value.indexed.get? uri ∨
        a.Drops uri ∧ (act s w a).host.value.indexed.get? uri = none := by
  cases a with
  | floor consumer b => exact (library_floor hup).imp_right .inl
  | schedule books => exact .inl (Library.indexes_refl _)
  | detect k => exact .inl (indexes_servedAt w k library_detect)
  | ensure k => exact .inl (indexes_servedAt w k library_ensureIndexed)
  | index k => exact .inl (indexes_servedAt w k fun _ _ => .inr rfl)
  | remove uri' =>
      refine .inr (.inr ?_)
      intro uri
      have hget := Keyed.get?_erase w.host.value.indexed uri' uri
      split at hget
      · rename_i heq
        exact .inr ⟨heq, hget⟩
      · exact .inl hget
  | indexWorkspace disk root =>
      simp only [act]
      split
      · rename_i telling htelling
        refine .inr (.inr fun uri => .inr ⟨trivial, ?_⟩)
        show telling.value.2.library.indexed.get? uri = none
        rw [indexed_indexWorkspace htelling, Keyed.get?_empty]
      · exact .inl (Library.indexes_refl _)

/-! ### Nothing is indexed that is ahead of its document -/

theorem grows_act (w : Floor) (a : Act) : w.Grows (act s w a) := by
  have hsame : ∀ v : Floor, v.tasks = w.tasks → v.documents = w.documents →
      v.computations = w.computations → w.Grows v := by
    intro v htasks hdocuments hcomputations
    refine ⟨?_, ?_, ?_⟩
    · intro t k stage ht
      exact ⟨stage, by rwa [standing?_of_tasks htasks]⟩
    · intro k d hd
      exact ⟨d, by rwa [hdocuments], d.becomes_refl⟩
    · intro c y hy
      exact ⟨y, by rwa [hcomputations], y.becomes_refl⟩
  cases a with
  | floor consumer b =>
      exact act_induction (P := fun v => w.Grows v) (fun _ _ _ hs hv => hv.trans hs.grows)
        (fun v c hv => hv.trans (v.grows_beginComputation c))
        (fun v c hv => hv.trans (v.grows_settleComputation c)) w.grows_refl b
  | schedule books => exact hsame _ rfl rfl rfl
  | detect k | ensure k | index k =>
      simp only [act, servedAt]
      split
      · exact hsame _ rfl rfl rfl
      · exact w.grows_refl
  | remove uri => exact hsame _ rfl rfl rfl
  | indexWorkspace disk root =>
      simp only [act]
      split
      · exact hsame _ rfl rfl rfl
      · exact w.grows_refl

theorem grows_run (s : Settings) (p q : List Act) : (run s p).Grows (run s (p ++ q)) := by
  induction q using List.reverseRecOn with
  | nil => rw [List.append_nil]; exact grows_refl _
  | append_singleton q a ih =>
      rw [← List.append_assoc, run_append_singleton]
      exact ih.trans (grows_act _ a)

theorem reached_of_grows {uri : String} {v : Int} (hr : Library.Reached w.documents uri v)
    (hg : w.Grows w') : Library.Reached w'.documents uri v := by
  obtain ⟨d, hd, rfl, hle⟩ := hr
  obtain ⟨k, hk⟩ := List.getElem?_of_mem hd
  obtain ⟨d', hd', hbecomes⟩ := hg.documents k d hk
  exact ⟨d', List.mem_of_getElem? hd', hbecomes.uri.symm, Int.le_trans hle hbecomes.le⟩

/-- Neither is a version indexed that no document has come to, nor is a computation of one under way. -/
structure Trails (w : Floor) : Prop where
  plain : ∀ y ∈ w.computations, y.IsPlain
  begun : ∀ y ∈ w.computations, Library.Reached w.documents y.document.uri y.document.version
  indexed : w.host.value.Trails w.documents

theorem trails_initial : Trails (.initial (return ∅)) := by
  refine ⟨by simp [World.initial], by simp [World.initial], ?_⟩
  intro uri v hv
  cases hv

theorem Trails.act (ht : Trails w) {a : Act} (hup : a.IsUpToDate w) : Trails (act s w a) := by
  have hgrows := grows_act (s := s) w a
  have hcomputations : ∀ y ∈ (Service.act s w a).computations, y.IsPlain ∧
      Library.Reached w.documents y.document.uri y.document.version := by
    intro y' hmem
    obtain ⟨c, hy'⟩ := List.getElem?_of_mem hmem
    obtain ⟨y, hy, hstate, hdocument⟩ | ⟨hqueued, hmem⟩ | ⟨y, hy, -, hdocument, hstate⟩ :=
      computation_cases a ht.plain hy'
    · have hmem := List.mem_of_getElem? hy
      rw [Computation.IsPlain, hstate, hdocument]
      exact ⟨ht.plain y hmem, ht.begun y hmem⟩
    · exact ⟨.inl hqueued, y'.document, hmem, rfl, Int.le_refl _⟩
    · rw [Computation.IsPlain, hstate, hdocument]
      exact ⟨.inr ⟨_, rfl⟩, ht.begun y (List.mem_of_getElem? hy)⟩
  refine ⟨?_, ?_, ?_⟩
  · intro y hy
    exact (hcomputations y hy).1
  · intro y hy
    exact reached_of_grows (hcomputations y hy).2 hgrows
  · intro uri v hv
    refine reached_of_grows (w := w) ?_ hgrows
    obtain hindexes | ⟨y, hb, -, hlibrary⟩ | hdrops := library_cases (s := s) hup
    · exact hindexes.trails ht.indexed uri v hv
    · obtain ⟨c, -, hy⟩ := hb.turn
      rw [hlibrary] at hv
      exact ht.indexed.index (ht.begun y (List.mem_of_getElem? hy)) uri v hv
    · rcases hdrops uri with hsame | ⟨-, hnone⟩
      · exact ht.indexed uri v (hsame ▸ hv)
      · rw [hnone] at hv
        cases hv

theorem trails_run {as : List Act} (hup : ∀ p a, p ++ [a] <+: as → a.IsUpToDate (run s p)) :
    Trails (run s as) := by
  induction as using List.reverseRecOn with
  | nil => exact trails_initial
  | append_singleton as a ih =>
      rw [run_append_singleton]
      refine (ih ?_).act (hup as a (List.prefix_refl _))
      intro p b hp
      exact hup p b (hp.trans (List.prefix_append as [a]))

/-! ### Refreshes that are overtaken -/

/-- The computation of a refresh is begun in an act, and a later version of its stylesheet is indexed
already. -/
structure Overtaken (w : Floor) (a : Act) (y : Computation Record) : Prop extends Begins w a y where
  stylesheet : y.document.isStylesheet = true
  later : ∃ v, w.host.value.indexed.get? y.document.uri = some v ∧ y.document.version < v

def IsOvertaken (s : Settings) (as : List Act) : Prop :=
  ∃ p a y, p ++ [a] <+: as ∧ Overtaken (run s p) a y

/-- From when a version of a document is indexed, there is never an earlier one indexed in its place,
as long as it is not given up. -/
def NeverFalls (s : Settings) (as : List Act) : Prop :=
  ∀ p q, p ++ q <+: as → ∀ uri v, (run s p).host.value.indexed.get? uri = some v →
    (∀ a ∈ q, ¬a.Drops uri) →
      ∃ v', (run s (p ++ q)).host.value.indexed.get? uri = some v' ∧ v ≤ v'

theorem Overtaken.library {a : Act} {y : Computation Record} (ho : Overtaken w a y) :
    (act s w a).host.value = (w.host.value.index y.document).value := by
  obtain ⟨v, hv, hlt⟩ := ho.later
  have hlacks : w.host.value.lacks y.document = true := by
    simp only [Library.lacks, ho.stylesheet, hv, Bool.true_and, decide_eq_true_eq, ne_eq,
      Option.some.injEq]
    omega
  rw [ho.toBegins.library, value_prepare, if_pos hlacks]

theorem Begins.not_drops {a : Act} {y : Computation Record} (hb : Begins w a y) (uri : String) :
    ¬a.Drops uri := by
  obtain ⟨c, hturn, -⟩ := hb.turn
  cases a with
  | floor => exact id
  | _ => cases hturn

theorem Trails.le_act (ht : Trails w) {a : Act} (hup : a.IsUpToDate w)
    (hdistinct : (w.documents.map (·.uri)).Nodup) (hnot : ∀ y, ¬Overtaken w a y) {uri : String}
    (hdrops : ¬a.Drops uri) {v : Int} (hv : w.host.value.indexed.get? uri = some v) :
    ∃ v', (Service.act s w a).host.value.indexed.get? uri = some v' ∧ v ≤ v' := by
  obtain hindexes | ⟨y, hb, hlacks, hlibrary⟩ | hcases := library_cases (s := s) hup
  · exact hindexes.le ht.indexed hdistinct hv
  · rw [hlibrary, Library.indexed_index, Keyed.get?_set]
    split
    · rename_i huri
      subst huri
      refine ⟨y.document.version, rfl, ?_⟩
      by_contra hlt
      rw [Library.lacks, Bool.and_eq_true] at hlacks
      exact hnot y ⟨hb, hlacks.1, v, hv, by omega⟩
    · exact ⟨v, hv, Int.le_refl v⟩
  · rcases hcases uri with hsame | ⟨hdrop, -⟩
    · exact ⟨v, hsame.trans hv, Int.le_refl v⟩
    · exact absurd hdrop hdrops

theorem nodup_of_grows (hg : w.Grows w') (hdistinct : (w'.documents.map (·.uri)).Nodup) :
    (w.documents.map (·.uri)).Nodup := by
  have hprefix : w.documents.map (·.uri) <+: w'.documents.map (·.uri) := by
    rw [List.prefix_iff_getElem?]
    intro k hk
    rw [List.length_map] at hk
    obtain ⟨d', hd', hbecomes⟩ := hg.documents k _ (List.getElem?_eq_getElem hk)
    rw [List.getElem?_map, hd', List.getElem_map, hbecomes.uri]
    rfl
  exact hdistinct.sublist hprefix.sublist

/-- Whatever order things happen in, no version that is indexed gives way to an earlier one exactly if
no refresh is overtaken. Where one is, what is declared is put back to what the document said when the
refresh asked for its records. -/
theorem neverFalls_iff_not_isOvertaken (s : Settings) (as : List Act)
    (hup : ∀ p a, p ++ [a] <+: as → a.IsUpToDate (run s p))
    (hdistinct : ((run s as).documents.map (·.uri)).Nodup) :
    (NeverFalls s as ↔ ¬IsOvertaken s as) ∧
      ∀ p a y, p ++ [a] <+: as → Overtaken (run s p) a y →
        (run s (p ++ [a])).host.value = ((run s p).host.value.index y.document).value := by
  refine ⟨⟨?_, ?_⟩, ?_⟩
  · rintro hnever ⟨p, a, y, hp, ho⟩
    obtain ⟨v, hv, hlt⟩ := ho.later
    have hdrops : ∀ b ∈ [a], ¬b.Drops y.document.uri := by
      intro b hb
      rw [List.mem_singleton.mp hb]
      exact ho.not_drops _
    obtain ⟨v', hv', hle⟩ := hnever p [a] hp _ v hv hdrops
    rw [run_append_singleton, ho.library, Library.indexed_index, Keyed.get?_set, if_pos rfl] at hv'
    obtain rfl := Option.some.inj hv'
    omega
  · intro hnot p q hq uri v hv hdrops
    induction q using List.reverseRecOn with
    | nil => exact ⟨v, by rwa [List.append_nil], Int.le_refl v⟩
    | append_singleton q a ih =>
        rw [← List.append_assoc] at hq ⊢
        have hq' : p ++ q <+: as := (List.prefix_append (p ++ q) [a]).trans hq
        obtain ⟨u, hu, hle⟩ :=
          ih hq' fun b hb => hdrops b (List.mem_append_left [a] hb)
        have htrails : Trails (run s (p ++ q)) :=
          trails_run fun p' b hp' => hup p' b (hp'.trans hq')
        have hdistinct' : ((run s (p ++ q)).documents.map (·.uri)).Nodup := by
          obtain ⟨rest, rfl⟩ := hq'
          exact nodup_of_grows (grows_run s (p ++ q) rest) hdistinct
        obtain ⟨v', hv', hle'⟩ := htrails.le_act (s := s) (hup _ a hq) hdistinct'
          (fun y ho => hnot ⟨p ++ q, a, y, hq, ho⟩)
          (hdrops a (List.mem_append_right q (List.mem_singleton_self a))) hu
        exact ⟨v', by rwa [run_append_singleton], Int.le_trans hle hle'⟩
  · intro p a y _ ho
    rw [run_append_singleton]
    exact ho.library

/-- The stylesheet is edited and indexed between the turn in which a refresh asks for its records and
the turn in which these are computed. -/
def overtakenRefresh : List Act :=
  [.floor .ready (.openDocument (theme 1)), .floor .ready (.start .refresh 0),
    .floor .ready (.turn 0), .floor .ready (.edit 0 (theme 2).text), .ensure 0,
    .floor .ready (.turn 0)]

theorem isUpToDate_overtakenRefresh (p : List Act) (a : Act) (hp : p ++ [a] <+: overtakenRefresh) :
    a.IsUpToDate (run eager p) := by
  have hmem : a ∈ overtakenRefresh := hp.subset (List.mem_append_right p (List.mem_singleton_self a))
  simp only [overtakenRefresh, List.mem_cons, List.not_mem_nil, or_false] at hmem
  rcases hmem with rfl | rfl | rfl | rfl | rfl | rfl
  all_goals first | exact trivial | exact fun _ l => Library.indexes_refl l.value

theorem not_neverFalls_overtakenRefresh : ¬NeverFalls eager overtakenRefresh := by
  intro hnever
  have hbefore : (run eager (overtakenRefresh.take 5)).host.value.indexed.get? "theme" = some 2 := by
    decide +kernel
  have hafter : (run eager overtakenRefresh).host.value.indexed.get? "theme" = some 1 := by
    decide +kernel
  obtain ⟨v, hv, hle⟩ := hnever (overtakenRefresh.take 5) [.floor .ready (.turn 0)]
    (List.prefix_refl _) "theme" 2 hbefore (by simp [Act.Drops])
  obtain rfl : 1 = v := Option.some.inj (hafter.symm.trans hv)
  omega

/-- A stylesheet that is at its second version is indexed as it was at its first, after the second
was. -/
theorem falls_of_overtakenRefresh :
    (∀ p a, p ++ [a] <+: overtakenRefresh → a.IsUpToDate (run eager p)) ∧
      (run eager overtakenRefresh).documents = [theme 2] ∧
      ((run eager (overtakenRefresh.take 5)).host.value.answer "page" "var(--a)").map (·.css) =
        ["rgb(0, 0, 0)"] ∧
      ((run eager overtakenRefresh).host.value.answer "page" "var(--a)").map (·.css) =
        ["rgb(255, 255, 255)"] ∧
      ¬NeverFalls eager overtakenRefresh :=
  ⟨isUpToDate_overtakenRefresh, by decide +kernel, by decide +kernel, by decide +kernel,
    not_neverFalls_overtakenRefresh⟩

theorem isOvertaken_overtakenRefresh :
    (∀ p a, p ++ [a] <+: overtakenRefresh → a.IsUpToDate (run eager p)) ∧
      ((run eager overtakenRefresh).documents.map (·.uri)).Nodup ∧ IsOvertaken eager overtakenRefresh := by
  have hdistinct : ((run eager overtakenRefresh).documents.map (·.uri)).Nodup := by decide +kernel
  refine ⟨isUpToDate_overtakenRefresh, hdistinct, ?_⟩
  by_contra hnot
  exact not_neverFalls_overtakenRefresh
    ((neverFalls_iff_not_isOvertaken eager overtakenRefresh isUpToDate_overtakenRefresh hdistinct).1.mpr
      hnot)

end Service

end Swatch
