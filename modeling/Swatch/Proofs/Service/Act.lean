import Swatch.Proofs.Refresh.Growth
import Swatch.Service.Host

/-!
The orders in which a service may run. Besides what may come next in any world, the service may be
asked for something that it does at once. Refreshes belong to any number of schedulers, and somebody
takes their records.
-/

namespace Swatch

namespace Service

/-- Whoever takes the records of a service. It may have the service do something meanwhile, but then
cached answers are void afterwards. -/
structure Consumer where
  apply : Visit Record → Log.Telling Library →
    Log.Telling Library × List Command × Option (Ending Unit)
  voids : ∀ visit l, (apply visit l).1.value = l.value ∨ .invalidate ∈ (apply visit l).2.1
  edits : ∀ visit l uri text, .edit uri text ∉ (apply visit l).2.1

def Consumer.ready : Consumer where
  apply _ l := (l, [], some (.finished ()))
  voids _ _ := .inl rfl
  edits _ _ _ _ := List.not_mem_nil

/-- The host of the tasks of a service whose records somebody takes. -/
def hostFor (s : Settings) (consumer : Consumer) : Host (Log.Telling Library) Record :=
  { host s with apply := consumer.apply }

theorem hostFor_ready (s : Settings) : hostFor s .ready = host s :=
  rfl

inductive Act where
  /-- What may come next in any world happens, while somebody takes the records. -/
  | floor (consumer : Consumer) (a : Swatch.Act Record)
  /-- The books of another scheduler are at hand. -/
  | schedule (books : Scheduler)
  | detect (document : Nat)
  | ensure (document : Nat)
  | index (document : Nat)
  | remove (uri : String)
  | indexWorkspace (disk : Disk) (root : Path)

def served (s : Settings) (w : Floor) (f : Service → Log.Telling Service) : Floor :=
  (onto w (do return ((), ← f (ofFloor s w)))).2

def servedAt (s : Settings) (w : Floor) (k : Nat)
    (f : Service → Document → Log.Telling Service) : Floor :=
  match w.documents[k]? with
  | some d => served s w (f · d)
  | none => w

/-- The tasks of a service after an act. -/
def act (s : Settings) (w : Floor) : Act → Floor
  | .floor consumer a => w.act (hostFor s consumer) a
  | .schedule books => { w with scheduler := books }
  | .detect k => servedAt s w k fun service d => do return (← service.detect d).2
  | .ensure k => servedAt s w k fun service d => do return (← service.ensureIndexed d).2
  | .index k => servedAt s w k fun service d => service.index d
  | .remove uri => served s w fun service => return service.remove uri
  | .indexWorkspace disk root =>
      match (ofFloor s w).indexWorkspace disk root with
      | .ok telling => served s w fun _ => do return (← telling).2
      | .error _ => w

def run (s : Settings) (as : List Act) : Floor :=
  as.foldl (act s) (.initial (return ∅))

@[simp] theorem run_nil (s : Settings) : run s [] = .initial (return ∅) :=
  rfl

theorem run_append_singleton (s : Settings) (as : List Act) (a : Act) :
    run s (as ++ [a]) = act s (run s as) a := by
  simp [run]

/-- The texts of all documents belong to their addresses and versions. -/
def Coherent (texts : String → Int → String) (w : Floor) : Prop :=
  ∀ d ∈ w.documents, d.text = texts d.uri d.version

end Service

def Library.answer (l : Library) (uri text : String) : List Record :=
  (Detection.detect l.registry uri text).told.value

theorem Library.detect_value (l : Library) (d : Document) :
    (l.detect d).value = l.answer d.uri d.text :=
  rfl

namespace Service

variable {s : Settings} {consumer : Consumer}

theorem prepare_voids (l : Log.Telling Library) (d : Document) :
    ((prepare l d).1.value = l.value ∨ .invalidate ∈ (prepare l d).2) ∧
      ∀ uri text, .edit uri text ∉ (prepare l d).2 := by
  rw [prepare]
  split
  · exact ⟨.inr (List.mem_singleton_self _), by simp⟩
  · exact ⟨.inl rfl, by simp⟩

/-- Whenever the host changes its library, cached answers are void; and it edits nothing. -/
theorem hostFor_yields {l l' : Log.Telling Library} {commands : List Command}
    (hyields : (hostFor s consumer).Yields l l' commands) :
    (l'.value = l.value ∨ .invalidate ∈ commands) ∧ ∀ uri text, .edit uri text ∉ commands := by
  cases hyields with
  | @prepare d _ _ hp =>
      have hp : (if s.covers d.language then some (prepare l d) else none) =
        some (l', commands) := hp
      split at hp
      · have hvoids := prepare_voids l d
        rwa [Option.some.inj hp] at hvoids
      · simp at hp
  | @apply visit _ _ ending? ha =>
      have ha : consumer.apply visit l = (l', commands, ending?) := ha
      have hvoids := consumer.voids visit l
      have hedits := consumer.edits visit l
      rw [ha] at hvoids hedits
      exact ⟨hvoids, hedits⟩

theorem hostFor_compute {errand : Errand} {d : Document} {l l' : Log.Telling Library}
    {commands : List Command} {progress : Progress Record}
    (hcompute : (hostFor s consumer).compute errand d l = (l', commands, progress)) :
    progress = .ended (.finished (l'.value.answer d.uri d.text)) ∧
      (l'.value = l.value ∨ .invalidate ∈ commands) ∧ ∀ uri text, .edit uri text ∉ commands := by
  cases errand with
  | refresh =>
      have hvoids := prepare_voids l d
      obtain ⟨rfl, hrest⟩ := Prod.mk.inj hcompute
      obtain ⟨rfl, rfl⟩ := Prod.mk.inj hrest
      exact ⟨rfl, hvoids⟩
  | detection =>
      obtain ⟨rfl, hrest⟩ := Prod.mk.inj hcompute
      obtain ⟨rfl, rfl⟩ := Prod.mk.inj hrest
      exact ⟨rfl, .inl rfl, by simp⟩

end Service

end Swatch
