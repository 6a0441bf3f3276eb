import Swatch.Refresh.Run
import Swatch.Service.Basic

/-!
Refreshes and detections that a service runs beside each other. They share its library and its
cache, and what is worth telling of them is kept with the library.
-/

namespace Swatch.Service

abbrev Floor := World (Log.Telling Library) Record

/-- Indexes a document that declares something, unless it is indexed as it is; cached answers are
void then. -/
def prepare (l : Log.Telling Library) (d : Document) : Log.Telling Library × List Command :=
  if l.value.lacks d then (l >>= (·.index d), [.invalidate]) else (l, [])

def host (s : Settings) : Host (Log.Telling Library) Record where
  debounce := s.debounce
  chunkSize := s.chunkSize
  pause := s.pause
  chunkSize_pos := s.chunkSize_pos
  eligible d := s.covers d.language
  prepare d l := if s.covers d.language then some (prepare l d) else none
  compute errand d l :=
    let (l, commands) :=
      match errand with
      | .refresh => prepare l d
      | .detection => (l, [])
    let found := l.value.detect d
    (⟨l.value, l.notices ++ found.notices⟩, commands, .ended (.finished found.value))
  apply _ l := (l, [], some (.finished ()))

def ofFloor (settings : Settings) (w : Floor) : Service :=
  ⟨settings, w.host.value, w.cache⟩

def onto {α : Type} (w : Floor) (t : Log.Telling (α × Service)) : α × Floor :=
  (t.value.1,
    { w with
      host := ⟨t.value.2.library, w.host.notices ++ t.notices⟩
      cache := t.value.2.cache })

end Swatch.Service
