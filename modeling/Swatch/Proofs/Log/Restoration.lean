import Swatch.Log.Board

/-!
What is left of a logger's ranks when it has told everything for a while. The logger gets its rank
back, whatever was done meanwhile. Its handlers are given the ranks that were noted by their places:
one that stands elsewhere when the logger is left, since another was detached before it, is given
the rank of the handler that had this place.
-/

namespace Swatch.Log.Board

variable {b c : Board} {name other : String} {number n : Nat} {rank : Int}

@[simp] theorem logger_modifyLogger (b : Board) (name other : String) (f : Logger → Logger) :
    (b.modifyLogger name f).logger other =
      if other = name then f (b.logger name) else b.logger other := by
  simp only [logger, modifyLogger, Keyed.get?_set]
  split <;> simp_all

@[simp] theorem handlers_modifyLogger (b : Board) (name : String) (f : Logger → Logger) :
    (b.modifyLogger name f).handlers = b.handlers := rfl

@[simp] theorem logger_setHandlerRank (b : Board) (number : Nat) (rank : Int) (name : String) :
    (b.setHandlerRank number rank).logger name = b.logger name := rfl

@[simp] theorem length_setHandlerRank (b : Board) (number : Nat) (rank : Int) :
    (b.setHandlerRank number rank).handlers.length = b.handlers.length := by
  simp [setHandlerRank]

theorem handlerRank_setHandlerRank_self (h : number < b.handlers.length) :
    (b.setHandlerRank number rank).handlerRank number = rank := by
  simp [handlerRank, setHandlerRank, h]

theorem handlerRank_setHandlerRank_of_ne (h : n ≠ number) :
    (b.setHandlerRank number rank).handlerRank n = b.handlerRank n := by
  simp [handlerRank, setHandlerRank, h.symm]

theorem setHandlerRanks_cons_cons (b : Board) (number : Nat) (numbers : List Nat) (rank : Int)
    (ranks : List Int) :
    b.setHandlerRanks (number :: numbers) (rank :: ranks) =
      (b.setHandlerRank number rank).setHandlerRanks numbers ranks := rfl

@[simp] theorem setHandlerRanks_nil_right (b : Board) (numbers : List Nat) :
    b.setHandlerRanks numbers [] = b := by
  simp [setHandlerRanks]

@[simp] theorem logger_setHandlerRanks (b : Board) (numbers : List Nat) (ranks : List Int)
    (name : String) : (b.setHandlerRanks numbers ranks).logger name = b.logger name := by
  induction numbers generalizing b ranks with
  | nil => rfl
  | cons number numbers ih =>
    cases ranks with
    | nil => simp
    | cons rank ranks => rw [setHandlerRanks_cons_cons, ih, logger_setHandlerRank]

@[simp] theorem length_setHandlerRanks (b : Board) (numbers : List Nat) (ranks : List Int) :
    (b.setHandlerRanks numbers ranks).handlers.length = b.handlers.length := by
  induction numbers generalizing b ranks with
  | nil => rfl
  | cons number numbers ih =>
    cases ranks with
    | nil => simp
    | cons rank ranks => rw [setHandlerRanks_cons_cons, ih, length_setHandlerRank]

theorem handlerRank_setHandlerRanks_of_notMem {numbers : List Nat} (h : n ∉ numbers)
    (ranks : List Int) : (b.setHandlerRanks numbers ranks).handlerRank n = b.handlerRank n := by
  induction numbers generalizing b ranks with
  | nil => rfl
  | cons number numbers ih =>
    rw [List.mem_cons, not_or] at h
    cases ranks with
    | nil => simp
    | cons rank ranks =>
      rw [setHandlerRanks_cons_cons, ih h.2, handlerRank_setHandlerRank_of_ne h.1]

/-- The handler at a place is given the rank at that place, if there is one. -/
theorem handlerRank_setHandlerRanks {numbers : List Nat} (hd : numbers.Nodup)
    (hlt : ∀ number ∈ numbers, number < b.handlers.length) {i : Nat}
    (hi : numbers[i]? = some number) (ranks : List Int) :
    (b.setHandlerRanks numbers ranks).handlerRank number =
      ranks[i]?.getD (b.handlerRank number) := by
  induction numbers generalizing b ranks i with
  | nil => simp at hi
  | cons first numbers ih =>
    rw [List.nodup_cons] at hd
    cases ranks with
    | nil => simp
    | cons rank ranks =>
      rw [setHandlerRanks_cons_cons]
      cases i with
      | zero =>
        obtain rfl : first = number := by simpa using hi
        rw [handlerRank_setHandlerRanks_of_notMem hd.1, handlerRank_setHandlerRank_self]
        · simp
        · exact hlt first List.mem_cons_self
      | succ i =>
        rw [List.getElem?_cons_succ] at hi
        have hne : number ≠ first := fun h => hd.1 (h ▸ List.mem_of_getElem? hi)
        rw [ih hd.2 (fun m hm => by simpa using hlt m (List.mem_cons_of_mem _ hm)) hi,
          handlerRank_setHandlerRank_of_ne hne, List.getElem?_cons_succ]

/-! ### Telling everything and restoring -/

@[simp] theorem handlers_logger_setRank (b : Board) (name : String) (rank : Int) (other : String) :
    ((b.setRank name rank).logger other).handlers = (b.logger other).handlers := by
  rw [setRank, logger_modifyLogger]
  split <;> simp_all

@[simp] theorem handlers_logger_tellAll (b : Board) (name other : String) :
    ((b.tellAll name).logger other).handlers = (b.logger other).handlers := by
  simp [tellAll]

@[simp] theorem length_tellAll (b : Board) (name : String) :
    (b.tellAll name).handlers.length = b.handlers.length := by
  simp [tellAll, setRank]

@[simp] theorem handlers_logger_restore (b : Board) (name : String) (r : Ranks) (other : String) :
    ((b.restore name r).logger other).handlers = (b.logger other).handlers := by
  simp [restore]

@[simp] theorem length_restore (b : Board) (name : String) (r : Ranks) :
    (b.restore name r).handlers.length = b.handlers.length := by
  simp [restore, setRank]

theorem rank_logger_restore_self (b : Board) (name : String) (r : Ranks) :
    ((b.restore name r).logger name).rank = r.logger := by
  simp [restore, setRank]

theorem logger_restore_of_ne (h : other ≠ name) (b : Board) (r : Ranks) :
    (b.restore name r).logger other = b.logger other := by
  simp [restore, setRank, h]

theorem logger_tellAll_of_ne (h : other ≠ name) (b : Board) :
    (b.tellAll name).logger other = b.logger other := by
  simp [tellAll, setRank, h]

/-- Every logger gives its entries to handlers that there are, and to none of them twice. -/
structure Sound (b : Board) : Prop where
  nodup (name : String) : (b.logger name).handlers.Nodup
  lt (name : String) {number : Nat} : number ∈ (b.logger name).handlers → number < b.handlers.length

/-- Ranks do not count for this, nor does a handler more. -/
theorem Sound.of_handlers (hs : b.Sound)
    (hh : ∀ name, (c.logger name).handlers = (b.logger name).handlers)
    (hl : b.handlers.length ≤ c.handlers.length) : c.Sound where
  nodup name := by simpa [hh name] using hs.nodup name
  lt name _ h := Nat.lt_of_lt_of_le (hs.lt name (by simpa [hh name] using h)) hl

theorem Sound.tellAll (hs : b.Sound) (name : String) : (b.tellAll name).Sound :=
  hs.of_handlers (by simp) (by simp)

theorem Sound.restore (hs : b.Sound) (name : String) (r : Ranks) : (b.restore name r).Sound :=
  hs.of_handlers (by simp) (by simp)

theorem Sound.attach (hs : b.Sound) (hn : number < b.handlers.length) (name : String) :
    (b.attach name number).Sound where
  nodup other := by
    rw [Board.attach, logger_modifyLogger]
    have := hs.nodup name
    have := hs.nodup other
    grind
  lt other m h := by
    rw [Board.attach, logger_modifyLogger] at h
    have hother : m ∈ (b.logger other).handlers → m < b.handlers.length := hs.lt other
    have hname : m ∈ (b.logger name).handlers → m < b.handlers.length := hs.lt name
    rw [Board.attach, handlers_modifyLogger]
    grind

theorem Sound.detach (hs : b.Sound) (name : String) (number : Nat) : (b.detach name number).Sound where
  nodup other := by
    rw [Board.detach, logger_modifyLogger]
    split
    · exact (hs.nodup name).erase number
    · exact hs.nodup other
  lt other m h := by
    rw [Board.detach, logger_modifyLogger] at h
    rw [Board.detach, handlers_modifyLogger]
    split at h
    · exact hs.lt name (List.mem_of_mem_erase h)
    · exact hs.lt other h

/-- The rank of a handler that a logger is left with: the one that was noted at its place, or the one
it has where nothing was noted. -/
theorem handlerRank_restore (hs : b.Sound) {i : Nat}
    (hi : (b.logger name).handlers[i]? = some number) (r : Ranks) :
    (b.restore name r).handlerRank number = r.handlers[i]?.getD (b.handlerRank number) := by
  have hranked : (b.setRank name r.logger).Sound :=
    hs.of_handlers (by simp) (by simp [setRank])
  have hplace : ((b.setRank name r.logger).logger name).handlers[i]? = some number := by
    rw [handlers_logger_setRank, hi]
  rw [restore, ← handlers_logger_setRank b name r.logger name,
    handlerRank_setHandlerRanks (hranked.nodup name) (fun _ h => hranked.lt name h) hplace]
  rfl

/-! ### What is done meanwhile -/

/-- What may become of a board by what gives no ranks: handlers are made, attached to loggers and
detached from them, those excepted that are spared, and loggers are made to tell everything while
more of this is done. -/
inductive Changes (spared : String → Nat → Prop) : Board → Board → Prop
  | none (b : Board) : Changes spared b b
  | make {b c : Board} (handler : Handler) (h : Changes spared b c) :
      Changes spared b { c with handlers := c.handlers ++ [handler] }
  | attach {b c : Board} {number : Nat} (name : String) (h : Changes spared b c)
      (hn : number < c.handlers.length) : Changes spared b (c.attach name number)
  | detach {b c : Board} {name : String} {number : Nat} (h : Changes spared b c)
      (hs : ¬ spared name number) : Changes spared b (c.detach name number)
  | debugging {b c : Board} {name : String} {α : Type} {body : StateM Board α}
      (h : Changes spared b c) (hb : Changes spared (c.tellAll name) (body (c.tellAll name)).2) :
      Changes spared b (c.debugging name body).2

variable {spared : String → Nat → Prop} {α : Type} {body : StateM Board α}

theorem debugging_snd (b : Board) (name : String) (body : StateM Board α) :
    (b.debugging name body).2 = (body (b.tellAll name)).2.restore name (b.ranks name) := rfl

theorem Changes.sound (h : Changes spared b c) (hs : b.Sound) : c.Sound := by
  induction h with
  | none => exact hs
  | make handler _ ih => exact (ih hs).of_handlers (fun _ => rfl) (by simp)
  | attach name _ hn ih => exact (ih hs).attach hn name
  | detach _ _ ih => exact (ih hs).detach _ _
  | debugging _ _ ih ihb => exact (ihb ((ih hs).tellAll _)).restore _ _

/-- Once a logger is left, the loggers have the ranks that they had before, if nothing but that has
changed them. -/
theorem rank_logger_debugging
    (h : ∀ other, ((body (b.tellAll name)).2.logger other).rank = ((b.tellAll name).logger other).rank)
    (other : String) : ((b.debugging name body).2.logger other).rank = (b.logger other).rank := by
  rw [debugging_snd]
  by_cases ho : other = name
  · rw [ho, rank_logger_restore_self]
    rfl
  · rw [logger_restore_of_ne ho, h, logger_tellAll_of_ne ho]

theorem Changes.rank_logger (h : Changes spared b c) (name : String) :
    (c.logger name).rank = (b.logger name).rank := by
  induction h generalizing name with
  | none => rfl
  | make handler _ ih => exact ih name
  | attach _ _ _ ih | detach _ _ ih =>
    rw [← ih name]
    simp only [Board.attach, Board.detach, logger_modifyLogger]
    grind
  | debugging _ _ ih ihb => rw [rank_logger_debugging ihb, ih]

theorem prefix_erase {xs ys : List Nat} (h : xs <+: ys) (hn : n ∉ xs) : xs <+: ys.erase n := by
  obtain ⟨rest, rfl⟩ := h
  exact ⟨rest.erase n, (List.erase_append_right rest hn).symm⟩

/-- Spared handlers at the front of a logger's keep their places. -/
theorem Changes.prefix (h : Changes spared b c) {numbers : List Nat}
    (hs : ∀ number ∈ numbers, spared name number) (hp : numbers <+: (b.logger name).handlers) :
    numbers <+: (c.logger name).handlers := by
  induction h with
  | none => exact hp
  | make handler _ ih => exact ih hp
  | attach other _ _ ih =>
    have hc := ih hp
    simp only [Board.attach, logger_modifyLogger]
    split
    · next heq =>
      subst heq
      split
      · exact hc
      · exact hc.trans (List.prefix_append _ _)
    · exact hc
  | detach _ hn ih =>
    have hc := ih hp
    simp only [Board.detach, logger_modifyLogger]
    split
    · next heq =>
      subst heq
      exact prefix_erase hc fun hm => hn (hs _ hm)
    · exact hc
  | debugging _ _ ih ihb =>
    rw [debugging_snd, handlers_logger_restore]
    exact ihb (by rw [handlers_logger_tellAll]; exact ih hp)

/-! ### What is restored -/

/-- A logger's rank is what it was, and so is that of every handler attached to it before and
after. -/
structure Restored (name : String) (before after : Board) : Prop where
  logger : (after.logger name).rank = (before.logger name).rank
  handlers : ∀ number ∈ (before.logger name).handlers, number ∈ (after.logger name).handlers →
    after.handlerRank number = before.handlerRank number

/-- Everything is restored exactly if every handler that was attached before and still is stands
where one of its rank stood, or behind all of those places with its rank unchanged. -/
theorem restored_debugging_iff (hs : b.Sound)
    (hb : Changes spared (b.tellAll name) (body (b.tellAll name)).2) :
    Restored name b (b.debugging name body).2 ↔
      ∀ (i number : Nat), ((body (b.tellAll name)).2.logger name).handlers[i]? = some number →
        number ∈ (b.logger name).handlers →
        ((b.logger name).handlers[i]?.map b.handlerRank).getD
          ((body (b.tellAll name)).2.handlerRank number) = b.handlerRank number := by
  have hleft : (body (b.tellAll name)).2.Sound := hb.sound (hs.tellAll name)
  have hrank {i number : Nat}
      (hi : ((body (b.tellAll name)).2.logger name).handlers[i]? = some number) :
      (b.debugging name body).2.handlerRank number =
        ((b.logger name).handlers[i]?.map b.handlerRank).getD
          ((body (b.tellAll name)).2.handlerRank number) := by
    rw [debugging_snd, handlerRank_restore hleft hi, ranks, List.getElem?_map]
  constructor
  · intro h i number hi hbefore
    rw [← hrank hi]
    refine h.handlers number hbefore ?_
    rw [debugging_snd, handlers_logger_restore]
    exact List.mem_of_getElem? hi
  · intro h
    refine ⟨rank_logger_debugging hb.rank_logger name, fun number hbefore hafter => ?_⟩
    rw [debugging_snd, handlers_logger_restore] at hafter
    obtain ⟨i, hi⟩ := List.mem_iff_getElem?.mp hafter
    rw [hrank hi, h i number hi hbefore]

/-- A logger with a handler for what is told and another for mistakes alone. -/
def twoHandlers : Board :=
  ⟨[⟨.console, .text, Level.info.rank⟩, ⟨.console, .text, Level.error.rank⟩],
    .ofList [(rootName, ⟨Level.info.rank, [0, 1], false⟩)]⟩

theorem logger_twoHandlers (name : String) :
    twoHandlers.logger name =
      if name = rootName then ⟨Level.info.rank, [0, 1], false⟩ else .unset := by
  simp only [logger, twoHandlers, Keyed.ofList, List.foldl, Keyed.get?_set]
  split <;> rfl

theorem sound_twoHandlers : twoHandlers.Sound where
  nodup name := by
    rw [logger_twoHandlers]
    split <;> decide
  lt name number h := by
    rw [logger_twoHandlers] at h
    split at h
    · simp only [List.mem_cons, List.not_mem_nil, or_false] at h
      simp only [twoHandlers, List.length_cons, List.length_nil]
      omega
    · simp [Logger.unset] at h

def detaching (name : String) (number : Nat) : StateM Board Unit :=
  modify (·.detach name number)

theorem changes_detaching (b : Board) (name : String) (number : Nat) :
    Changes (fun _ _ => False) b (detaching name number b).2 :=
  .detach (.none b) not_false

/-- The handler that stays keeps its place where the last one is detached. -/
theorem restored_detaching_last :
    Restored rootName twoHandlers (twoHandlers.debugging rootName (detaching rootName 1)).2 := by
  refine (restored_debugging_iff sound_twoHandlers (changes_detaching _ _ _)).mpr ?_
  intro i number hi hbefore
  have hleft : ((detaching rootName 1 (twoHandlers.tellAll rootName)).2.logger rootName).handlers =
      [0] := by decide
  rw [hleft] at hi
  obtain ⟨rfl, rfl⟩ : i = 0 ∧ number = 0 := by
    cases i with
    | zero => simpa using hi.symm
    | succ i => simp at hi
  decide

/-- The handler for mistakes is left with the rank of the other one where that is detached. -/
theorem not_restored_detaching_first :
    twoHandlers.Sound ∧
      Changes (fun _ _ => False) (twoHandlers.tellAll rootName)
        (detaching rootName 0 (twoHandlers.tellAll rootName)).2 ∧
      ¬ Restored rootName twoHandlers (twoHandlers.debugging rootName (detaching rootName 0)).2 := by
  refine ⟨sound_twoHandlers, changes_detaching _ _ _, fun h => ?_⟩
  have : Level.info.rank = Level.error.rank := h.handlers 1 (by decide) (by decide)
  exact absurd this (by decide)

/-- Everything is restored if no handler that the logger has is detached from it. -/
theorem restored_debugging (hs : b.Sound)
    (hb : Changes (fun logger number => logger = name ∧ number ∈ (b.logger name).handlers)
      (b.tellAll name) (body (b.tellAll name)).2) :
    Restored name b (b.debugging name body).2 := by
  have hleft : (body (b.tellAll name)).2.Sound := hb.sound (hs.tellAll name)
  obtain ⟨rest, hrest⟩ : (b.logger name).handlers <+: ((body (b.tellAll name)).2.logger name).handlers :=
    hb.prefix (fun _ h => ⟨rfl, h⟩) (by simp)
  rw [restored_debugging_iff hs hb]
  intro i number hi hbefore
  obtain ⟨j, hj⟩ := List.mem_iff_getElem?.mp hbefore
  have hleftj : ((body (b.tellAll name)).2.logger name).handlers[j]? = some number := by
    rw [← hrest, List.getElem?_append_left (by grind), hj]
  -- No handler occurs twice, so this one is met only where it was.
  obtain rfl : i = j :=
    (List.getElem?_inj (by grind) (hleft.nodup name)).mp (hi.trans hleftj.symm)
  simp [hj]

end Swatch.Log.Board
