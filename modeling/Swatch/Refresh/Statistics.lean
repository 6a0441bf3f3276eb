import Swatch.Json.Value
import Swatch.Refresh.Cache
import Swatch.Refresh.Scheduler

/-!
What a cache and the books of refreshes have counted, as values of the interchange format.
-/

namespace Swatch

def Cache.statistics {ρ : Type} (c : Cache ρ) : Json :=
  .obj
    [("entries", .int c.size), ("pending", .int c.pendingCount), ("hits", .int c.hits),
     ("misses", .int c.misses), ("fan_ins", .int c.joins), ("hit_ratio", .float c.hitRatio)]

/-- How many documents are being refreshed, and how many refreshes ended in which way. -/
def Scheduler.statistics (s : Scheduler) : Json :=
  .obj (("documents", .int s.documents) :: Status.all.map fun x => (x.name, .int (s.count x)))

end Swatch
