import Swatch.Proofs.Refresh.Holding
import Swatch.Proofs.Service.Session

/-!
Whether the records that are held are those that would be found now. What is declared never changes
without all that is held being made void, so that only a computation that ends before a change and is
settled after it can leave records behind that are out of date. Main statement: whether it does is
exactly whether such a computation is ever taken in late.
-/

namespace Swatch.Service

open World

/-- The records that are held are those that the library finds now in the texts that they are for. -/
def Fresh (texts : String → Int → String) (w : Floor) : Prop :=
  ∀ uri v records, w.cache.held? uri v = some records →
    records = w.host.value.answer uri (texts uri v)

/-- Either nothing is held any more, or the library is the same and nothing is held that was not. -/
def Upholds (w w' : Floor) : Prop :=
  (w'.host.value = w.host.value ∧ ∀ uri v records, w'.cache.held? uri v = some records →
    w.cache.held? uri v = some records) ∨ ∀ uri v, w'.cache.held? uri v = none

variable {s : Settings} {consumer : Consumer} {texts : String → Int → String} {w w' v : Floor}
  {free : Bool}

theorem upholds_refl (w : Floor) : Upholds w w :=
  .inl ⟨rfl, fun _ _ _ => id⟩

theorem Upholds.trans (hu : Upholds w w') (hu' : Upholds w' v) : Upholds w v := by
  rcases hu' with ⟨hhost', hheld'⟩ | hnone'
  · rcases hu with ⟨hhost, hheld⟩ | hnone
    · refine .inl ⟨hhost'.trans hhost, ?_⟩
      intro uri version records hrecords
      exact hheld uri version records (hheld' uri version records hrecords)
    · refine .inr ?_
      intro uri version
      rw [Option.eq_none_iff_forall_ne_some]
      intro records hrecords
      simpa [hnone] using hheld' uri version records hrecords
  · exact .inr hnone'

theorem Fresh.upholds (hf : Fresh texts w) (hu : Upholds w w') : Fresh texts w' := by
  intro uri version records hrecords
  rcases hu with ⟨hhost, hheld⟩ | hnone
  · rw [hhost]
    exact hf uri version records (hheld uri version records hrecords)
  · simp [hnone] at hrecords

theorem upholds_of_same (hhost : w'.host.value = w.host.value)
    (hheld : ∀ uri version, w'.cache.held? uri version = w.cache.held? uri version) :
    Upholds w w' := by
  refine .inl ⟨hhost, ?_⟩
  intro uri version records hrecords
  rwa [← hheld]

theorem upholds_hosted (w : Floor) {l : Log.Telling Library} {commands : List Command}
    (hvoids : l.value = w.host.value ∨ .invalidate ∈ commands) :
    Upholds w ({ w with host := l }.obeyAll commands) := by
  rcases hvoids with hsame | hvoid
  · refine .inl ⟨?_, ?_⟩
    · rw [host_obeyAll, hsame]
    · intro uri version records hrecords
      exact held?_of_obeyAll (w := { w with host := l }) hrecords
  · exact .inr (held?_obeyAll_of_invalidate hvoid)

theorem upholds_step (hs : Step (hostFor s consumer) free w w') : Upholds w w' := by
  obtain ⟨hhost, hheld⟩ | ⟨l, commands, rfl, hl⟩ := hs.held_cases
  · exact upholds_of_same (by rw [hhost]) hheld
  · refine upholds_hosted w ?_
    rcases hl with rfl | hyields
    · exact .inl rfl
    · exact (hostFor_yields hyields).1

theorem upholds_beginComputation (w : Floor) (c : Nat) :
    Upholds w (w.beginComputation (hostFor s consumer) c) := by
  obtain heq | ⟨x, l, commands, -, -, ⟨ending, hcompute, heq⟩ | ⟨records, hcompute, heq⟩⟩ :=
    w.beginComputation_cases (hostFor s consumer) c
  · rw [heq]
    exact upholds_refl w
  · rw [heq]
    exact (upholds_hosted w (hostFor_compute hcompute).2.1).trans
      (upholds_of_same rfl fun _ _ => rfl)
  · exact absurd (hostFor_compute hcompute).1 (by simp)

def Act.turn? (w : Floor) : Act → Option Turn
  | .floor _ (.turn n) => w.turns[n]?
  | _ => none

theorem upholds_floor (w : Floor) (consumer : Consumer) (a : Swatch.Act Record)
    (hsettle : ∀ c, (Act.floor consumer a).turn? w ≠ some (.settle c)) :
    Upholds w (w.act (hostFor s consumer) a) := by
  obtain hs | hsteps | ⟨n, c, -, -, heq⟩ | ⟨n, c, rfl, hturn, -⟩ := w.act_cases (h := _) a
  · exact upholds_step hs
  · exact steps_induction (fun _ _ hs hu => hu.trans (upholds_step hs)) hsteps (upholds_refl w)
  · rw [heq]
    refine .trans ?_ (upholds_beginComputation ..)
    exact upholds_of_same rfl fun _ _ => rfl
  · exact absurd hturn (hsettle c)

theorem upholds_served (w : Floor) (f : Service → Log.Telling Service)
    (hf : (f (ofFloor s w)).value = ofFloor s w ∨
      ∃ l, (f (ofFloor s w)).value = (ofFloor s w).withLibrary l) : Upholds w (served s w f) := by
  have hhost : (served s w f).host.value = (f (ofFloor s w)).value.library := rfl
  have hcache : (served s w f).cache = (f (ofFloor s w)).value.cache := rfl
  rcases hf with heq | ⟨l, heq⟩
  · rw [heq] at hhost hcache
    exact upholds_of_same hhost fun _ _ => by rw [hcache]; rfl
  · rw [heq] at hcache
    refine .inr fun uri version => ?_
    rw [hcache]
    exact Cache.held?_invalidate _ uri version

theorem upholds_act (w : Floor) (a : Act) (hsettle : ∀ c, a.turn? w ≠ some (.settle c))
    (hdetect : ∀ k, a ≠ .detect k) : Upholds w (act s w a) := by
  cases a with
  | floor consumer a => exact upholds_floor w consumer a hsettle
  | schedule books => exact upholds_of_same rfl fun _ _ => rfl
  | detect k => exact absurd rfl (hdetect k)
  | ensure k =>
      simp only [act, servedAt]
      split
      · exact upholds_served w _ (ensureIndexed_cases ..)
      · exact upholds_refl w
  | index k =>
      simp only [act, servedAt]
      split
      · exact upholds_served w _ (.inr ⟨_, rfl⟩)
      · exact upholds_refl w
  | remove uri => exact upholds_served w _ (.inr ⟨_, rfl⟩)
  | indexWorkspace disk root =>
      simp only [act]
      split
      · rename_i telling htelling
        exact upholds_served w _ (.inr (indexWorkspace_cases htelling))
      · exact upholds_refl w

/-! ### Records that are asked for at once -/

theorem Fresh.isCurrent (hf : Fresh texts w) : (ofFloor s w).IsCurrent texts :=
  hf

theorem Fresh.act_detect (hf : Fresh texts w) (hcoherent : Coherent texts w) (k : Nat) :
    Fresh texts (act s w (.detect k)) := by
  simp only [act, servedAt]
  split
  · rename_i d hd
    have hcurrent := hf.isCurrent (s := s)
    exact hcurrent.detect (hcoherent d (List.mem_of_getElem? hd))
  · exact hf

/-! ### Where records that are taken in come from -/

def HasEnded (w : Floor) (c : Nat) : Prop :=
  ∃ ending, w.state? c = some (.ended ending)

def Ends (s : Settings) (p : List Act) (a : Act) (c : Nat) : Prop :=
  ¬HasEnded (run s p) c ∧ HasEnded (run s (p ++ [a])) c

theorem HasEnded.grows {c : Nat} (hended : HasEnded w c) (hg : w.Grows w') : HasEnded w' c := by
  obtain ⟨ending, hstate⟩ := hended
  obtain ⟨y, hy, hending⟩ := Option.map_eq_some_iff.mp hstate
  obtain ⟨y', hy', hbecomes⟩ := hg.computations c y hy
  refine ⟨ending, ?_⟩
  simp [state?, hy', hbecomes.ended ending hending]

theorem computations_act (w : Floor) (a : Act) :
    (∃ consumer b, a = .floor consumer b) ∨ (act s w a).computations = w.computations := by
  cases a with
  | floor consumer b => exact .inl ⟨consumer, b, rfl⟩
  | schedule books => exact .inr rfl
  | detect k | ensure k | index k =>
      refine .inr ?_
      simp only [act, servedAt]
      split <;> rfl
  | remove uri => exact .inr rfl
  | indexWorkspace disk root =>
      refine .inr ?_
      simp only [act]
      split <;> rfl

theorem HasEnded.act {c : Nat} (hended : HasEnded w c) (a : Act) : HasEnded (act s w a) c := by
  obtain ⟨consumer, b, rfl⟩ | hsame := computations_act (s := s) w a
  · exact act_induction (P := fun v => HasEnded v c) (fun _ _ _ hs hv => hv.grows hs.grows)
      (fun v i hv => hv.grows (v.grows_beginComputation i))
      (fun v i hv => hv.grows (v.grows_settleComputation i)) hended b
  · simpa [HasEnded, state?, hsame] using hended

theorem HasEnded.append {p : List Act} {c : Nat} (hended : HasEnded (run s p) c) (q : List Act) :
    HasEnded (run s (p ++ q)) c := by
  induction q using List.reverseRecOn with
  | nil => simpa using hended
  | append_singleton q a ih =>
      rw [← List.append_assoc, run_append_singleton]
      exact ih.act a

theorem Ends.unique {p q p' q' : List Act} {a a' : Act} {c : Nat} (he : Ends s p a c)
    (he' : Ends s p' a' c) (heq : p ++ a :: q = p' ++ a' :: q') : p = p' ∧ a = a' := by
  rcases List.append_eq_append_iff.mp heq with ⟨as, rfl, has⟩ | ⟨as, rfl, has⟩
  · cases as with
    | nil => exact ⟨by simp, (List.cons.inj has).1⟩
    | cons b as =>
        obtain ⟨rfl, -⟩ := List.cons.inj has
        refine absurd ?_ he'.1
        simpa using he.2.append as
  · cases as with
    | nil => exact ⟨by simp, (List.cons.inj has).1.symm⟩
    | cons b as =>
        obtain ⟨rfl, -⟩ := List.cons.inj has
        refine absurd ?_ he.1
        simpa using he'.2.append as

theorem steps_computation_cases (hsteps : Steps (hostFor s consumer) w w')
    (hplain : ∀ y ∈ w.computations, y.IsPlain) :
    w'.documents = w.documents ∧ ∀ (c : Nat) (y' : Computation Record),
      w'.computations[c]? = some y' →
        (∃ y : Computation Record, w.computations[c]? = some y ∧ y'.state = y.state ∧
          y'.document = y.document) ∨ y'.state = .queued ∧ y'.document ∈ w.documents := by
  refine steps_induction (P := fun v => v.documents = w.documents ∧
    ∀ (c : Nat) (y' : Computation Record), v.computations[c]? = some y' →
      (∃ y : Computation Record, w.computations[c]? = some y ∧ y'.state = y.state ∧
        y'.document = y.document) ∨ y'.state = .queued ∧ y'.document ∈ w.documents) ?_ hsteps
    ⟨rfl, fun c y' hy' => .inl ⟨y', hy', rfl, rfl⟩⟩
  rintro v v' hs ⟨hdocuments, hcases⟩
  have hplain' : ∀ y ∈ v.computations, y.IsPlain := by
    intro y hy
    obtain ⟨c, hc⟩ := List.getElem?_of_mem hy
    rcases hcases c y hc with ⟨x, hx, hstate, -⟩ | ⟨hqueued, -⟩
    · rw [Computation.IsPlain, hstate]
      exact hplain x (List.mem_of_getElem? hx)
    · exact .inl hqueued
  refine ⟨(hs.documents fun _ _ _ hy => (hostFor_yields hy).2).trans hdocuments, ?_⟩
  intro c y' hy'
  rcases hs.computation_cases hplain' hy' with ⟨y, hy, hstate, hdocument⟩ | ⟨hqueued, hmem⟩
  · rw [hstate, hdocument]
    exact hcases c y hy
  · rw [hdocuments] at hmem
    exact .inr ⟨hqueued, hmem⟩

theorem computation_cases (a : Act) (hplain : ∀ y ∈ w.computations, y.IsPlain) {c : Nat}
    {y' : Computation Record} (hy' : (act s w a).computations[c]? = some y') :
    (∃ y : Computation Record, w.computations[c]? = some y ∧ y'.state = y.state ∧
      y'.document = y.document) ∨
    (y'.state = .queued ∧ y'.document ∈ w.documents) ∨
    ∃ y : Computation Record, w.computations[c]? = some y ∧ y.state = .queued ∧
      y'.document = y.document ∧ y'.state = .ended (.finished
        ((act s w a).host.value.answer y.document.uri y.document.text)) := by
  obtain ⟨consumer, b, rfl⟩ | hsame := computations_act (s := s) w a
  swap
  · exact .inl ⟨y', hsame ▸ hy', rfl, rfl⟩
  simp only [act] at hy' ⊢
  obtain hs | hsteps | ⟨n, i, -, -, heq⟩ | ⟨n, i, -, -, heq⟩ :=
    w.act_cases (h := hostFor s consumer) b
  · exact (hs.computation_cases hplain hy').imp_right .inl
  · exact ((steps_computation_cases hsteps hplain).2 c y' hy').imp_right .inl
  · rw [heq] at hy' ⊢
    obtain hnone | ⟨x, l, commands, hx, hqueued, ⟨ending, hcompute, hended⟩ |
      ⟨records, hcompute, -⟩⟩ := World.beginComputation_cases { w with
        turns := w.turns.eraseIdx n } (hostFor s consumer) i
    · rw [hnone] at hy'
      exact .inl ⟨y', hy', rfl, rfl⟩
    · rw [hended] at hy' ⊢
      simp only [endComputation, List.getElem?_modify, (obeyAll_frame ..).2.2] at hy'
      obtain ⟨y, hy, rfl⟩ := Option.map_eq_some_iff.mp hy'
      split
      · rename_i hic
        subst hic
        obtain rfl : x = y := Option.some.inj (hx.symm.trans hy)
        refine .inr (.inr ⟨x, hx, hqueued, rfl, ?_⟩)
        obtain rfl := Progress.ended.inj (hostFor_compute hcompute).1
        simp [endComputation]
      · exact .inl ⟨y, hy, rfl, rfl⟩
    · exact absurd (hostFor_compute hcompute).1 (by simp)
  · rw [heq, (settleComputation_frame ..).1] at hy'
    exact .inl ⟨y', hy', rfl, rfl⟩

/-- Every computation of a run is of a document as it was, and its records are those that the
library found when it came to its end. -/
structure Recorded (s : Settings) (texts : String → Int → String) (as : List Act) : Prop where
  plain : ∀ y ∈ (run s as).computations, y.IsPlain
  coherent : ∀ y ∈ (run s as).computations,
    y.document.text = texts y.document.uri y.document.version
  found : ∀ (c : Nat) (y : Computation Record) records, (run s as).computations[c]? = some y →
    y.state = .ended (.finished records) →
      ∃ p a q, as = p ++ a :: q ∧ Ends s p a c ∧
        records = (run s (p ++ [a])).host.value.answer y.document.uri y.document.text

theorem recorded_nil (s : Settings) (texts : String → Int → String) : Recorded s texts [] := by
  refine ⟨?_, ?_, ?_⟩ <;> simp [World.initial]

theorem Recorded.append_singleton {as : List Act} (hr : Recorded s texts as)
    (hcoherent : Coherent texts (run s as)) (a : Act) : Recorded s texts (as ++ [a]) := by
  have hcases : ∀ y ∈ (run s (as ++ [a])).computations, y.IsPlain ∧
      y.document.text = texts y.document.uri y.document.version := by
    intro y' hmem
    obtain ⟨c, hy'⟩ := List.getElem?_of_mem hmem
    rw [run_append_singleton] at hy'
    obtain ⟨y, hy, hstate, hdocument⟩ | ⟨hqueued, hmem⟩ | ⟨y, hy, -, hdocument, hstate⟩ :=
      computation_cases a hr.plain hy'
    · rw [Computation.IsPlain, hstate, hdocument]
      exact ⟨hr.plain y (List.mem_of_getElem? hy), hr.coherent y (List.mem_of_getElem? hy)⟩
    · exact ⟨.inl hqueued, hcoherent _ hmem⟩
    · rw [Computation.IsPlain, hstate, hdocument]
      exact ⟨.inr ⟨_, rfl⟩, hr.coherent y (List.mem_of_getElem? hy)⟩
  refine ⟨fun y hy => (hcases y hy).1, fun y hy => (hcases y hy).2, ?_⟩
  intro c y' records hget hended
  have hy' := hget
  rw [run_append_singleton] at hy'
  obtain ⟨y, hy, hstate, hdocument⟩ | ⟨hqueued, -⟩ | ⟨y, hy, hqueued, hdocument, hstate⟩ :=
    computation_cases a hr.plain hy'
  · obtain ⟨p, b, q, rfl, hends, hrecords⟩ := hr.found c y records hy (hstate ▸ hended)
    exact ⟨p, b, q ++ [a], by simp, hends, hdocument ▸ hrecords⟩
  · rw [hqueued] at hended
    cases hended
  · refine ⟨as, a, [], rfl, ⟨?_, ?_⟩, ?_⟩
    · rintro ⟨ending, hending⟩
      simp [state?, hy, hqueued] at hending
    · exact ⟨.finished records, by simp [state?, hget, hended]⟩
    · rw [hstate] at hended
      obtain rfl : _ = records := by simpa using hended
      rw [run_append_singleton, hdocument]

/-! ### Records that are taken in late -/

/-- The cache takes in the records of a computation in an act: the computation is settled while it is
under way still, and no records of a later version are held. -/
structure TakesIn (w : Floor) (a : Act) (c : Nat) (y : Computation Record) : Prop where
  turn : a.turn? w = some (.settle c)
  computation : w.computations[c]? = some y
  finished : ∃ records, y.state = .ended (.finished records)
  pending : w.cache.pending.get? (y.document.uri, y.document.version) = some c
  newest : ∀ entry, w.cache.entries.get? y.document.uri = some entry →
    entry.version ≤ y.document.version

/-- Records are taken in late in a run: a computation comes to its end, the library changes so that it
would find something else, and only then the cache takes in the records. -/
def IsLate (s : Settings) (as : List Act) : Prop :=
  ∃ (p : List Act) (a : Act) (q : List Act) (b : Act) (rest : List Act) (c : Nat)
    (y : Computation Record),
    as = p ++ a :: (q ++ b :: rest) ∧ Ends s p a c ∧ TakesIn (run s (p ++ a :: q)) b c y ∧
      (run s (p ++ [a])).host.value.answer y.document.uri y.document.text ≠
        (run s (p ++ a :: q)).host.value.answer y.document.uri y.document.text

theorem act_of_turn? {a : Act} {c : Nat} (hturn : a.turn? w = some (.settle c)) :
    ∃ turns, act s w a = { w with turns := turns }.settleComputation c := by
  cases a with
  | floor consumer b =>
      cases b with
      | turn n =>
          have hturn : w.turns[n]? = some (.settle c) := hturn
          refine ⟨w.turns.eraseIdx n, ?_⟩
          simp only [act, World.act, hturn]
          rfl
      | _ => cases hturn
  | _ => cases hturn

theorem Fresh.settle (hf : Fresh texts w) {a : Act} {c : Nat}
    (hturn : a.turn? w = some (.settle c))
    (htaken : ∀ y records, TakesIn w a c y → y.state = .ended (.finished records) →
      records = w.host.value.answer y.document.uri
        (texts y.document.uri y.document.version)) : Fresh texts (act s w a) := by
  obtain ⟨turns, heq⟩ := act_of_turn? (s := s) hturn
  intro uri version records hheld
  rw [heq] at hheld ⊢
  rw [(settleComputation_frame ..).2.2]
  obtain ⟨y, ending, hy, hstate, hcases⟩ | ⟨hsame, -⟩ :=
    settleComputation_cases { w with turns := turns } c
  · rw [hcases] at hheld
    rcases Cache.held?_settle hheld with hheld | ⟨rfl, rfl, rfl, hpending, hnewest⟩
    · exact hf uri version records hheld
    · exact htaken y records ⟨hturn, hy, ⟨records, hstate⟩, hpending, hnewest⟩ hstate
  · rw [hsame] at hheld
    exact hf uri version records hheld

theorem TakesIn.held {a : Act} {c : Nat} {y : Computation Record} (ht : TakesIn w a c y)
    {records : List Record} (hstate : y.state = .ended (.finished records)) :
    (act s w a).cache.held? y.document.uri y.document.version = some records ∧
      (act s w a).host = w.host := by
  obtain ⟨turns, heq⟩ := act_of_turn? (s := s) ht.turn
  rw [heq]
  refine ⟨?_, (settleComputation_frame ..).2.2⟩
  simp only [settleComputation, ht.computation, hstate]
  exact Cache.held?_settle_self ht.pending ht.newest records

theorem recorded_of_coherent {as : List Act}
    (hcoherent : ∀ p, p <+: as → Coherent texts (run s p)) {p : List Act} (hp : p <+: as) :
    Recorded s texts p := by
  induction p using List.reverseRecOn with
  | nil => exact recorded_nil s texts
  | append_singleton p a ih =>
      have hp' : p <+: as := (List.prefix_append p [a]).trans hp
      exact (ih hp').append_singleton (hcoherent p hp') a

/-- Whatever order things happen in, all that is held is what the library finds now, at any time,
exactly if no records are ever taken in late. -/
theorem fresh_iff_not_isLate (s : Settings) (texts : String → Int → String) (as : List Act)
    (hcoherent : ∀ p, p <+: as → Coherent texts (run s p)) :
    ((∀ p, p <+: as → Fresh texts (run s p)) ↔ ¬IsLate s as) ∧
      ∀ p, p <+: as → Fresh texts (run s p) → ∀ d ∈ (run s p).documents,
        s.covers d.language = true → ((ofFloor s (run s p)).detect d).value.1 =
          ((ofFloor s (run s p)).detect d).value.2.library.answer d.uri d.text := by
  refine ⟨⟨?_, ?_⟩, ?_⟩
  · rintro hfresh ⟨p, a, q, b, rest, c, y, heq, hends, htakes, hne⟩
    obtain ⟨records, hstate⟩ := htakes.finished
    have hp : p ++ a :: q <+: as := ⟨b :: rest, by simp [heq]⟩
    have hr := recorded_of_coherent hcoherent hp
    -- The records are those that were found when the computation came to its end.
    obtain ⟨p', a', q', hsplit, hends', hrecords⟩ := hr.found c y records htakes.computation hstate
    obtain ⟨rfl, rfl⟩ := hends.unique hends' hsplit
    obtain ⟨hheld, hhost⟩ := htakes.held (s := s) hstate
    have hnow := hfresh (p ++ a :: q ++ [b]) ⟨rest, by simp [heq]⟩ y.document.uri y.document.version
      records (by rwa [run_append_singleton])
    rw [run_append_singleton, hhost, ← hr.coherent y (List.mem_of_getElem? htakes.computation)] at hnow
    exact hne (hrecords.symm.trans hnow)
  · intro hlate p
    induction p using List.reverseRecOn with
    | nil =>
        intro _ uri version records hheld
        simp [World.initial, EmptyCollection.emptyCollection, Cache.empty, Cache.held?, Keyed.get?,
          Keyed.empty] at hheld
    | append_singleton p b ih =>
        intro hp
        have hp' : p <+: as := (List.prefix_append p [b]).trans hp
        have hf := ih hp'
        have hr := recorded_of_coherent hcoherent hp'
        rw [run_append_singleton]
        by_cases hsettle : ∃ c, b.turn? (run s p) = some (.settle c)
        · obtain ⟨c, hturn⟩ := hsettle
          refine hf.settle hturn ?_
          intro y records htakes hstate
          obtain ⟨before, a, q, rfl, hends, hrecords⟩ :=
            hr.found c y records htakes.computation hstate
          rw [← hr.coherent y (List.mem_of_getElem? htakes.computation), hrecords]
          by_contra hne
          obtain ⟨rest, hrest⟩ := hp
          exact hlate ⟨before, a, q, b, rest, c, y, by simp [← hrest], hends, htakes, hne⟩
        · by_cases hdetect : ∃ k, b = .detect k
          · obtain ⟨k, rfl⟩ := hdetect
            exact hf.act_detect (hcoherent p hp') k
          · exact hf.upholds (upholds_act _ b (fun c hc => hsettle ⟨c, hc⟩)
              fun k hk => hdetect ⟨k, hk⟩)
  · intro p hp hf d hd hcovers
    exact hf.isCurrent.answers (hcoherent p hp d hd) hcovers

def eager : Settings :=
  { Settings.default with debounce := 0.0 }

def themed (uri : String) (_ : Int) : String :=
  if uri = "page" then "var(--a)" else ":root\x7b--a:#fff\x7d"

/-- The page and the stylesheet are refreshed beside each other. The stylesheet is indexed when the
records of the page are found already, but not taken in yet. -/
def lateRefreshes : List Act :=
  [.floor .ready (.openDocument ⟨"page", 1, "html", themed "page" 1⟩),
    .floor .ready (.openDocument ⟨"theme", 1, "css", themed "theme" 1⟩),
    .floor .ready (.start .refresh 0), .floor .ready (.start .refresh 1),
    .floor .ready (.turn 0), .floor .ready (.turn 0), .floor .ready (.turn 0),
    .floor .ready (.turn 0), .floor .ready (.turn 0)]

theorem coherent_lateRefreshes (p : List Act) (hp : p <+: lateRefreshes) :
    Coherent themed (run eager p) := by
  have htake : ∀ n : Fin 10, ∀ d ∈ (run eager (lateRefreshes.take n)).documents,
      d.text = themed d.uri d.version := by
    decide +kernel
  rw [List.prefix_iff_eq_take] at hp
  have hlength : p.length < 10 := by
    have hle := congrArg List.length hp
    rw [List.length_take] at hle
    have : lateRefreshes.length = 9 := rfl
    omega
  rw [hp]
  exact htake ⟨p.length, hlength⟩

theorem not_fresh_lateRefreshes : ¬Fresh themed (run eager lateRefreshes) := by
  intro hfresh
  have hheld : ((run eager lateRefreshes).cache.held? "page" 1).map List.length = some 0 := by
    decide +kernel
  have hanswer :
      ((run eager lateRefreshes).host.value.answer "page" (themed "page" 1)).length = 1 := by
    decide +kernel
  obtain ⟨records, hrecords, hlength⟩ := Option.map_eq_some_iff.mp hheld
  rw [hfresh "page" 1 records hrecords, hanswer] at hlength
  cases hlength

/-- A page is answered for with records that were found before the last stylesheet was indexed. -/
theorem stale_of_lateRefreshes :
    let page : Document := ⟨"page", 1, "html", themed "page" 1⟩
    let service := ofFloor eager (run eager lateRefreshes)
    (∀ p, p <+: lateRefreshes → Coherent themed (run eager p)) ∧
      page ∈ (run eager lateRefreshes).documents ∧ eager.covers page.language = true ∧
      ¬Fresh themed (run eager lateRefreshes) ∧
      (service.detect page).value.1 ≠
        (service.detect page).value.2.library.answer page.uri page.text := by
  intro page service
  have hstale : ((service.detect page).value.1).length = 0 := by decide +kernel
  have hanswer :
      ((service.detect page).value.2.library.answer page.uri page.text).length = 1 := by
    decide +kernel
  refine ⟨coherent_lateRefreshes, by decide +kernel, by decide +kernel, not_fresh_lateRefreshes, ?_⟩
  intro heq
  rw [heq, hanswer] at hstale
  cases hstale

theorem isLate_lateRefreshes :
    (∀ p, p <+: lateRefreshes → Coherent themed (run eager p)) ∧ IsLate eager lateRefreshes := by
  refine ⟨coherent_lateRefreshes, ?_⟩
  by_contra hlate
  have hfresh :=
    (fresh_iff_not_isLate eager themed lateRefreshes coherent_lateRefreshes).1.mpr hlate
  exact not_fresh_lateRefreshes (hfresh lateRefreshes (List.prefix_refl _))

end Swatch.Service
