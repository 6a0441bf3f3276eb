import Swatch.Log.Notice

/-!
Results together with what is worth telling of the way to them.
-/

namespace Swatch.Log

/-- A result, and notices in the order in which they were told. -/
structure Telling (α : Type) where
  value : α
  notices : List Notice
  deriving Repr

namespace Telling

instance : Monad Telling where
  pure value := ⟨value, []⟩
  bind x f :=
    let y := f x.value
    ⟨y.value, x.notices ++ y.notices⟩

@[simp] theorem value_pure {α : Type} (x : α) : (pure x : Telling α).value = x :=
  rfl

@[simp] theorem value_bind {α β : Type} (x : Telling α) (f : α → Telling β) :
    (x >>= f).value = (f x.value).value :=
  rfl

end Telling

def tell (n : Notice) : Telling Unit :=
  ⟨(), [n]⟩

end Swatch.Log
