import Mathlib.Data.List.Basic
import Mathlib.Data.List.TakeWhile
import Swatch.Proofs.Except
import Swatch.Workspace.Pattern

/-!
What patterns of paths take in, piece by piece. Main statement: what a pattern says of a folder it
says of all that is below it, unless it ends in a set of characters that a slash belongs to.
-/

namespace Swatch.Pattern

/-- The characters that a piece may stand for. -/
def Piece.Takes : Piece → List Char → Prop
  | .char c, u => u = [c]
  | .anyChar, u => ∃ c, c ≠ '/' ∧ u = [c]
  | .anyChars, u => '/' ∉ u
  | .oneOf negated ranges, u =>
    ∃ c, ((ranges.any fun (a, b) => a ≤ c && c ≤ b) != negated) = true ∧ u = [c]
  | .slash, u => u = ['/']
  | .folders, u => u = [] ∨ ∃ c v, u = '/' :: c :: v

/-- The texts that pieces stand for one after the other. -/
def Takes : List Piece → List Char → Prop
  | [], u => u = []
  | p :: ps, u => ∃ v z, u = v ++ z ∧ p.Takes v ∧ Takes ps z

/-- Whether a piece is a set of characters that a slash belongs to. -/
def Piece.takesSlash : Piece → Bool
  | .oneOf negated ranges => (ranges.any fun (a, b) => a ≤ '/' && '/' ≤ b) != negated
  | _ => false

/-- Whether a rule may come to its end with a slash that a set of characters stands for. -/
def Rule.endsOnSlash : Rule → Bool
  | .path _ pieces false => pieces.getLast?.any Piece.takesSlash
  | _ => false

/-- What a name of a pattern is read as: no slash of its own, and no folders. -/
def Piece.IsOfName (p : Piece) : Prop :=
  p ≠ .slash ∧ p ≠ .folders ∧ p ≠ .char '/'

def EndInName (pieces : List Piece) : Prop :=
  ∃ front p, pieces = front ++ [p] ∧ p.IsOfName

/-- A rule as it is read from a pattern: one that does not ask for what is inside a folder ends with
a name. -/
def Rule.EndsInName : Rule → Prop
  | .path _ pieces false => EndInName pieces
  | _ => True

/-! ### Accepting is taking in a beginning -/

section Accepts

variable {accept : List Char → Bool} {cs : List Char}

theorem afterChars_iff : afterChars accept cs = true ↔
    ∃ v r, cs = v ++ r ∧ '/' ∉ v ∧ accept r = true := by
  induction cs with
  | nil =>
      refine ⟨fun h => ⟨[], [], rfl, by simp, h⟩, ?_⟩
      rintro ⟨v, r, heq, -, hr⟩
      obtain ⟨-, rfl⟩ := List.append_eq_nil_iff.mp heq.symm
      exact hr
  | cons c cs ih =>
      simp only [afterChars, Bool.or_eq_true, Bool.and_eq_true, ih, decide_eq_true_eq]
      constructor
      · rintro (h | ⟨hc, v, r, rfl, hv, hr⟩)
        · exact ⟨[], c :: cs, rfl, by simp, h⟩
        · exact ⟨c :: v, r, rfl, by simp [hv, Ne.symm hc], hr⟩
      · rintro ⟨_ | ⟨b, v⟩, r, heq, hv, hr⟩
        · exact .inl (by rw [heq]; exact hr)
        · obtain ⟨rfl, rfl⟩ := List.cons.inj heq
          simp only [List.mem_cons, not_or] at hv
          exact .inr ⟨Ne.symm hv.1, v, r, rfl, hv.2, hr⟩

theorem someEnd_iff : someEnd accept cs = true ↔ ∃ v r, cs = v ++ r ∧ accept r = true := by
  induction cs with
  | nil =>
      refine ⟨fun h => ⟨[], [], rfl, h⟩, ?_⟩
      rintro ⟨v, r, heq, hr⟩
      obtain ⟨-, rfl⟩ := List.append_eq_nil_iff.mp heq.symm
      exact hr
  | cons c cs ih =>
      simp only [someEnd, Bool.or_eq_true, ih]
      constructor
      · rintro (h | ⟨v, r, rfl, hr⟩)
        · exact ⟨[], c :: cs, rfl, h⟩
        · exact ⟨c :: v, r, rfl, hr⟩
      · rintro ⟨_ | ⟨b, v⟩, r, heq, hr⟩
        · exact .inl (by rw [heq]; exact hr)
        · obtain ⟨rfl, rfl⟩ := List.cons.inj heq
          exact .inr ⟨v, r, rfl, hr⟩

theorem afterSlash_iff : afterSlash accept cs = true ↔
    ∃ v r, cs = v ++ '/' :: r ∧ accept r = true := by
  induction cs with
  | nil => simp [afterSlash]
  | cons c cs ih =>
      simp only [afterSlash, Bool.or_eq_true, Bool.and_eq_true, beq_iff_eq, ih]
      constructor
      · rintro (⟨rfl, h⟩ | ⟨v, r, rfl, hr⟩)
        · exact ⟨[], cs, rfl, h⟩
        · exact ⟨c :: v, r, rfl, hr⟩
      · rintro ⟨_ | ⟨b, v⟩, r, heq, hr⟩
        · obtain ⟨rfl, rfl⟩ := List.cons.inj heq
          exact .inl ⟨rfl, hr⟩
        · obtain ⟨rfl, rfl⟩ := List.cons.inj heq
          exact .inr ⟨v, r, rfl, hr⟩

/-- What stands for one character is compared with the first one. -/
theorem exists_singleton_append {q : Char → Prop} :
    (∃ v r, cs = v ++ r ∧ (∃ c, q c ∧ v = [c]) ∧ accept r = true) ↔
      match cs with
      | [] => False
      | c :: r => q c ∧ accept r = true := by
  constructor
  · rintro ⟨_, r, rfl, ⟨c, hc, rfl⟩, hr⟩
    exact ⟨hc, hr⟩
  · intro h
    cases cs with
    | nil => exact h.elim
    | cons c r => exact ⟨[c], r, rfl, ⟨c, h.1, rfl⟩, h.2⟩

theorem accepts_cons (p : Piece) (ps : List Piece) : accepts (p :: ps) accept cs = true ↔
    ∃ v r, cs = v ++ r ∧ p.Takes v ∧ accepts ps accept r = true := by
  cases p with
  | char c =>
      have htakes : ∀ v, (Piece.char c).Takes v ↔ ∃ d, c = d ∧ v = [d] := by simp [Piece.Takes]
      simp only [htakes, exists_singleton_append]
      cases cs <;> simp [accepts]
  | anyChar =>
      refine Iff.trans ?_ exists_singleton_append.symm
      cases cs <;> simp [accepts]
  | anyChars => exact afterChars_iff
  | oneOf negated ranges =>
      refine Iff.trans ?_ exists_singleton_append.symm
      cases cs <;> simp [accepts]
  | slash =>
      have htakes : ∀ v, Piece.slash.Takes v ↔ ∃ d, d = '/' ∧ v = [d] := by simp [Piece.Takes]
      simp only [htakes, exists_singleton_append]
      cases cs <;> simp [accepts]
  | folders =>
      by_cases hcs : ∃ c rest, cs = '/' :: c :: rest
      · obtain ⟨c, rest, rfl⟩ := hcs
        rw [accepts, Bool.or_eq_true, someEnd_iff]
        constructor
        · rintro (h | ⟨v, r, rfl, hr⟩)
          · exact ⟨[], _, rfl, .inl rfl, h⟩
          · exact ⟨'/' :: c :: v, r, rfl, .inr ⟨c, v, rfl⟩, hr⟩
        · rintro ⟨_, r, heq, rfl | ⟨b, v, rfl⟩, hr⟩
          · exact .inl (by rw [heq]; exact hr)
          · exact .inr ⟨v, r, by simpa using (List.cons.inj (List.cons.inj heq).2).2, hr⟩
      · rw [accepts, Bool.or_false]
        · refine ⟨fun h => ⟨[], cs, rfl, .inl rfl, h⟩, ?_⟩
          rintro ⟨_, r, rfl, rfl | ⟨c, v, rfl⟩, hr⟩
          · exact hr
          · exact absurd ⟨c, v ++ r, rfl⟩ hcs
        · exact fun c rest heq => hcs ⟨c, rest, heq⟩

theorem accepts_iff {ps : List Piece} : accepts ps accept cs = true ↔
    ∃ u r, cs = u ++ r ∧ Takes ps u ∧ accept r = true := by
  induction ps generalizing cs with
  | nil =>
      rw [accepts]
      refine ⟨fun h => ⟨[], cs, rfl, rfl, h⟩, ?_⟩
      rintro ⟨u, r, rfl, rfl, hr⟩
      exact hr
  | cons p ps ih =>
      rw [accepts_cons]
      constructor
      · rintro ⟨v, r, rfl, hv, hr⟩
        obtain ⟨u, r, rfl, hu, hr⟩ := ih.mp hr
        exact ⟨v ++ u, r, by simp, ⟨v, u, rfl, hv, hu⟩, hr⟩
      · rintro ⟨u, r, rfl, ⟨v, z, rfl, hv, hz⟩, hr⟩
        exact ⟨v, z ++ r, by simp, hv, ih.mpr ⟨z, r, rfl, hz, hr⟩⟩

end Accepts

theorem takes_concat {ps : List Piece} {p : Piece} {u : List Char} :
    Takes (ps ++ [p]) u ↔ ∃ v z, u = v ++ z ∧ Takes ps v ∧ p.Takes z := by
  induction ps generalizing u with
  | nil =>
      refine ⟨?_, ?_⟩
      · rintro ⟨v, _, rfl, hv, rfl⟩
        exact ⟨[], v, by simp, rfl, hv⟩
      · rintro ⟨_, z, rfl, rfl, hz⟩
        exact ⟨z, [], by simp, hz, rfl⟩
  | cons q ps ih =>
      simp only [List.cons_append, Takes, ih]
      constructor
      · rintro ⟨a, _, rfl, ha, v, z, rfl, hv, hz⟩
        exact ⟨a ++ v, z, by simp, ⟨a, v, rfl, ha, hv⟩, hz⟩
      · rintro ⟨_, z, rfl, ⟨a, v, rfl, ha, hv⟩, hz⟩
        exact ⟨a, v ++ z, by simp, ha, v, z, rfl, hv, hz⟩

/-- A rule for paths takes in the whole of a path up to its end or to a slash, from its beginning on
or, if it is floating, from below some folder on. -/
theorem matches_path {floating inside : Bool} {ps : List Piece} {path : List Char} :
    (Rule.path floating ps inside).matches path = true ↔ ∃ a u r, path = a ++ u ++ r ∧
      (a = [] ∨ floating = true ∧ ∃ c b, a = c :: (b ++ ['/'])) ∧ Takes ps u ∧
      isEnd inside r = true := by
  simp only [Rule.matches, Bool.or_eq_true, Bool.and_eq_true, accepts_iff, afterSlash_iff]
  constructor
  · rintro (⟨u, r, rfl, hu, hr⟩ | ⟨hfloating, b, _, hpath, u, r, rfl, hu, hr⟩)
    · exact ⟨[], u, r, rfl, .inl rfl, hu, hr⟩
    · cases path with
      | nil => simp at hpath
      | cons c path =>
          obtain rfl : path = b ++ '/' :: (u ++ r) := hpath
          exact ⟨c :: (b ++ ['/']), u, r, by simp, .inr ⟨hfloating, c, b, rfl⟩, hu, hr⟩
  · rintro ⟨_, u, r, rfl, rfl | ⟨hfloating, c, b, rfl⟩, hu, hr⟩
    · exact .inl ⟨u, r, rfl, hu, hr⟩
    · exact .inr ⟨hfloating, b, u ++ r, by simp, u, r, rfl, hu, hr⟩

/-! ### What is said of a folder is said of all below it -/

theorem isEnd_of_no_slash {r : List Char} :
    isEnd false (r.dropWhile (· ≠ '/')) = true := by
  cases hr : r.dropWhile (· ≠ '/') with
  | nil => rfl
  | cons c rest =>
      have hc := List.head?_dropWhile_not (· ≠ '/') r
      rw [hr] at hc
      simp [isEnd, show c = '/' by simpa using hc]

theorem isEnd_append {inside : Bool} {r : List Char} (hr : r ≠ []) (hend : isEnd inside r = true)
    (rest : List Char) : isEnd inside (r ++ rest) = true := by
  cases r with
  | nil => exact absurd rfl hr
  | cons c r => simpa [isEnd] using hend

theorem Rule.matches_below {rule : Rule} (hname : rule.EndsInName)
    (hslash : rule.endsOnSlash = false) {path : List Char}
    (hm : rule.matches (path ++ ['/']) = true) (rest : List Char) :
    rule.matches (path ++ '/' :: rest) = true := by
  cases rule with
  | nothing => simp [Rule.matches] at hm
  | everything => simp [Rule.matches]
  | belowFolder => simp [Rule.matches]
  | path floating pieces inside =>
      obtain ⟨a, u, r, hpath, ha, hu, hend⟩ := matches_path.mp hm
      rw [matches_path]
      have hall : path ++ '/' :: rest = (a ++ u ++ r) ++ rest := by rw [← hpath]; simp
      by_cases hr : r = []
      · -- Only a name can take in the last slash, and only one that ends in an asterisk does; that
        -- asterisk takes in the next name of the path as well.
        subst hr
        obtain rfl : inside = false := by simpa [isEnd] using hend
        obtain ⟨ps, p, rfl, hslashless, hfolderless, hcharless⟩ := hname
        obtain ⟨v, z, rfl, hv, hz⟩ := takes_concat.mp hu
        have hlast : ∀ c, z = [c] → c = '/' := by
          rintro c rfl
          have hlast := congrArg List.getLast? hpath
          simpa [eq_comm] using hlast
        cases p with
        | char c =>
            obtain rfl := hlast c hz
            exact absurd rfl hcharless
        | anyChar =>
            obtain ⟨c, hc, hz⟩ := hz
            exact absurd (hlast c hz) hc
        | anyChars =>
            refine ⟨a, v ++ (z ++ rest.takeWhile (· ≠ '/')), rest.dropWhile (· ≠ '/'), ?_, ha, ?_,
              isEnd_of_no_slash⟩
            · rw [hall]
              simp
            · refine takes_concat.mpr ⟨v, _, rfl, hv, fun hmem => ?_⟩
              rcases List.mem_append.mp hmem with hmem | hmem
              · exact hz hmem
              · simpa using (List.mem_takeWhile_imp hmem)
        | oneOf negated ranges =>
            obtain ⟨c, hc, hz⟩ := hz
            obtain rfl := hlast c hz
            simp only [Rule.endsOnSlash, List.getLast?_append, List.getLast?_singleton,
              Option.some_or, Option.any_some, Piece.takesSlash] at hslash
            exact absurd (hc.symm.trans hslash) (by simp)
        | slash => exact absurd rfl hslashless
        | folders => exact absurd rfl hfolderless
      · exact ⟨a, u, r ++ rest, by rw [hall]; simp, ha, hu, isEnd_append hr hend rest⟩

/-! ### Rules that are read end in names -/

theorem set?_eq_some {cs rest : List Char} {p : Piece} (hset : set? cs = some (p, rest)) :
    (∃ negated ranges, p = .oneOf negated ranges) ∧ rest <:+ cs := by
  simp only [set?] at hset
  split at hset
  · simp at hset
  · rename_i c rest' hrest
    obtain ⟨rfl, rfl⟩ := Prod.mk.inj (Option.some.inj hset)
    refine ⟨⟨_, _, rfl⟩, .trans (List.suffix_cons c rest') ?_⟩
    rw [← hrest]
    refine .trans (List.dropWhile_suffix _) ?_
    split
    · rename_i heq
      refine .trans (List.suffix_cons ']' _) (heq ▸ ?_)
      split
      · exact List.suffix_cons ..
      · exact List.suffix_cons ..
      · exact List.suffix_rfl
    · dsimp only
      split
      · exact List.suffix_cons ..
      · exact List.suffix_cons ..
      · exact List.suffix_rfl

/-- What a name is read as has pieces of names only, and some if the name is not empty. -/
theorem namePieces_eq_ok {fuel : Nat} {name : List Char} {ps : List Piece}
    (hps : namePieces fuel name = .ok ps) (hname : '/' ∉ name) :
    (∀ p ∈ ps, p.IsOfName) ∧ (name ≠ [] → 0 < fuel → ps ≠ []) := by
  have hcons : ∀ {rest : List Char} {fuel : Nat} {p : Piece} {ps : List Piece}, p.IsOfName →
      (∀ {ps}, namePieces fuel rest = .ok ps → '/' ∉ rest →
        (∀ p ∈ ps, p.IsOfName) ∧ (rest ≠ [] → 0 < fuel → ps ≠ [])) →
      '/' ∉ rest → (p :: ·) <$> namePieces fuel rest = .ok ps →
      (∀ p ∈ ps, p.IsOfName) ∧ ps ≠ [] := by
    intro rest fuel p ps hp ih hrest hps
    obtain ⟨ps', hps', rfl⟩ := map_eq_ok.mp hps
    exact ⟨List.forall_mem_cons.mpr ⟨hp, (ih hps' hrest).1⟩, by simp⟩
  fun_induction namePieces fuel name generalizing ps with
  | case1 =>
      cases hps
      exact ⟨by simp, by simp⟩
  | case2 =>
      cases hps
      exact ⟨by simp, by simp⟩
  | case3 => cases hps
  | case4 fuel c rest ih =>
      simp only [List.mem_cons, not_or] at hname
      have h := hcons ⟨by simp, by simp, by simp [Ne.symm hname.2.1]⟩ ih hname.2.2 hps
      exact ⟨h.1, fun _ _ => h.2⟩
  | case5 fuel rest ih =>
      have h := hcons ⟨by simp, by simp, by simp⟩ ih (List.not_mem_of_not_mem_cons hname) hps
      exact ⟨h.1, fun _ _ => h.2⟩
  | case6 fuel rest ih =>
      have h := hcons ⟨by simp, by simp, by simp⟩ ih (List.not_mem_of_not_mem_cons hname) hps
      exact ⟨h.1, fun _ _ => h.2⟩
  | case7 => cases hps
  | case8 fuel rest piece rest' hset ih =>
      obtain ⟨⟨negated, ranges, rfl⟩, hsuffix⟩ := set?_eq_some hset
      have h := hcons ⟨by simp, by simp, by simp⟩ ih
        (fun hmem => List.not_mem_of_not_mem_cons hname (hsuffix.mem hmem)) hps
      exact ⟨h.1, fun _ _ => h.2⟩
  | case9 fuel c rest _ _ _ _ _ ih =>
      simp only [List.mem_cons, not_or] at hname
      have h := hcons ⟨by simp, by simp, by simp [Ne.symm hname.1]⟩ ih hname.2 hps
      exact ⟨h.1, fun _ _ => h.2⟩

theorem ofName_eq_ok {name : List Char} {ps : List Piece} (hps : ofName name = .ok ps)
    (hname : '/' ∉ name) : (∀ p ∈ ps, p.IsOfName) ∧ (name ≠ [] → ps ≠ []) := by
  rw [ofName] at hps
  split at hps
  · cases hps
    exact ⟨by simp [Piece.IsOfName], by simp⟩
  · have h := namePieces_eq_ok hps hname
    exact ⟨h.1, fun hne => h.2 hne (Nat.succ_pos _)⟩

theorem endInName_of_forall {ps : List Piece} (hps : ∀ p ∈ ps, p.IsOfName) (hne : ps ≠ []) :
    EndInName ps := by
  obtain ⟨front, p, rfl⟩ := (List.eq_nil_or_concat' ps).resolve_left hne
  exact ⟨front, p, rfl, hps p (by simp)⟩

theorem EndInName.append {ps : List Piece} (hps : EndInName ps) (front : List Piece) :
    EndInName (front ++ ps) := by
  obtain ⟨front', p, rfl, hp⟩ := hps
  exact ⟨front ++ front', p, by simp, hp⟩

/-- The names that a rule is read from: without a slash, and neither the last one nor what stands
before a last `**` is empty or for any folders. -/
structure AreNames (names : List (List Char)) : Prop where
  slash : ∀ name ∈ names, '/' ∉ name
  last : ∀ name, names.getLast? = some name → name ≠ [] ∧ name ≠ anyFolders

theorem AreNames.tail {name : List Char} {names : List (List Char)}
    (h : AreNames (name :: names)) : AreNames names where
  slash := fun n hn => h.slash n (by simp [hn])
  last := fun n hn => h.last n (by
    cases names with
    | nil => simp at hn
    | cons m names => simpa using hn)

theorem followingPieces_eq_ok {names : List (List Char)} {ps : List Piece}
    (hnames : AreNames names) (hne : names ≠ []) (hps : followingPieces names = .ok ps) :
    EndInName ps := by
  induction names generalizing ps with
  | nil => exact absurd rfl hne
  | cons name names ih =>
      rw [followingPieces] at hps
      by_cases hnil : names = []
      · subst hnil
        obtain ⟨hempty, hany⟩ := hnames.last name rfl
        rw [if_neg hany] at hps
        obtain ⟨_, hfirst, hps⟩ := bind_eq_ok.mp hps
        obtain ⟨pieces, hpieces, rfl⟩ := map_eq_ok.mp hfirst
        cases hps
        have h := ofName_eq_ok hpieces (hnames.slash name (by simp))
        simpa using (endInName_of_forall h.1 (h.2 hempty)).append [.slash]
      · split at hps
        all_goals
          obtain ⟨first, -, hps⟩ := bind_eq_ok.mp hps
          obtain ⟨rest, hrest, hps⟩ := bind_eq_ok.mp hps
          cases hps
          exact (ih hnames.tail hnil hrest).append first

/-- The pieces of a first name, which may stand anywhere, and of those that follow. -/
theorem firstPieces_eq_ok {name : List Char} {names : List (List Char)} {first rest : List Piece}
    (hnames : AreNames (name :: names)) (hfirst : ofName name = .ok first)
    (hrest : followingPieces names = .ok rest) : EndInName (first ++ rest) := by
  by_cases hnil : names = []
  · subst hnil
    cases hrest
    have h := ofName_eq_ok hfirst (hnames.slash name (by simp))
    rw [List.append_nil]
    exact endInName_of_forall h.1 (h.2 (hnames.last name rfl).1)
  · exact (followingPieces_eq_ok hnames.tail hnil hrest).append first

theorem slash_not_mem_of_mem_splitOn {cs name : List Char} (hname : name ∈ cs.splitOn '/') :
    '/' ∉ name := by
  induction cs generalizing name with
  | nil =>
      obtain rfl : name = [] := by simpa using hname
      simp
  | cons c cs ih =>
      obtain ⟨first, rest, hsplit⟩ := List.exists_cons_of_ne_nil (List.splitOn_ne_nil '/' cs)
      rw [List.splitOn_cons_eq_if_modifyHead, hsplit] at hname
      rw [hsplit] at ih
      split at hname
      · rcases List.mem_cons.mp hname with rfl | hname
        · simp
        · exact ih hname
      · rename_i hc
        rcases List.mem_cons.mp hname with rfl | hname
        · simpa [eq_comm, show c ≠ '/' by simpa using hc] using ih (List.mem_cons_self ..)
        · exact ih (List.mem_cons_of_mem _ hname)

theorem mem_of_mem_collapse {name : List Char} {names : List (List Char)}
    (h : name ∈ collapse names) : name ∈ names := by
  induction names with
  | nil => simp [collapse] at h
  | cons first names ih =>
      simp only [collapse] at h
      split at h
      · exact List.mem_cons_of_mem _ (ih h)
      · rcases List.mem_cons.mp h with rfl | h
        · exact List.mem_cons_self ..
        · exact List.mem_cons_of_mem _ (ih h)

theorem getLast?_collapse (names : List (List Char)) :
    (collapse names).getLast? = names.getLast? := by
  induction names with
  | nil => rfl
  | cons first names ih =>
      simp only [collapse]
      split
      · rename_i h
        cases hrest : collapse names with
        | nil => simp [hrest] at h
        | cons second rest =>
            rw [← hrest, ih, List.getLast?_cons, ← ih, hrest, List.getLast?_cons]
            rfl
      · rw [List.getLast?_cons, List.getLast?_cons, ih]

/-- What stands at the top of a pattern has names without slashes, and the last one is not empty. -/
theorem fromTop_eq_ok {names top : List (List Char)} (hnames : ∀ name ∈ names, '/' ∉ name)
    (htop : fromTop names = .ok top) :
    (∀ name ∈ top, '/' ∉ name) ∧ ∃ last, top.getLast? = some last ∧ last ≠ [] := by
  obtain ⟨all, hall, htop⟩ : ∃ all : List (List Char),
      (∀ name ∈ all, name ∈ names ∨ name = anyFolders) ∧
      (if all.isEmpty then .error .nothingLeft else
        .ok (collapse (if all.getLast? = some [] then all.dropLast ++ [anyFolders] else all))) =
        (.ok top : Except Fault _) := by
    refine ⟨_, fun name hname => ?_, htop⟩
    split at hname
    · exact .inl (List.mem_cons_of_mem _ hname)
    · split at hname <;> simp_all [or_comm]
    · split at hname <;> simp_all
      tauto
    · exact .inl hname
  have hmem : ∀ name ∈ all, '/' ∉ name := by
    intro name hname
    rcases hall name hname with h | rfl
    · exact hnames name h
    · decide
  split at htop
  · cases htop
  · rename_i hne
    cases htop
    obtain ⟨last, hlast⟩ : ∃ last, all.getLast? = some last :=
      Option.ne_none_iff_exists'.mp (by simpa using hne)
    refine ⟨fun name hname => ?_, ?_⟩
    · have hname := mem_of_mem_collapse hname
      split at hname
      · rcases List.mem_append.mp hname with h | h
        · exact hmem name (List.dropLast_subset _ h)
        · rw [List.mem_singleton.mp h]
          decide
      · exact hmem name hname
    · rw [getLast?_collapse]
      split
      · exact ⟨anyFolders, by simp, by decide⟩
      · rename_i h
        exact ⟨last, hlast, fun hnil => h (hlast.trans (congrArg some hnil))⟩

theorem ofNames_eq_ok {names : List (List Char)} {rule : Rule}
    (hnames : ∀ name ∈ names, '/' ∉ name) {last : List Char} (hlast : names.getLast? = some last)
    (hempty : last ≠ []) (hrule : ofNames names = .ok rule) : rule.EndsInName := by
  simp only [ofNames] at hrule
  by_cases hinside : names.getLast? = some anyFolders
  · simp only [hinside, decide_true] at hrule
    have hpath : ∃ floating pieces, rule = .path floating pieces true := by
      split at hrule
      · cases hrule
        exact ⟨_, _, rfl⟩
      · split at hrule
        · split at hrule
          · cases hrule
            exact ⟨_, _, rfl⟩
          · obtain ⟨_, -, hrule⟩ := bind_eq_ok.mp hrule
            obtain ⟨_, -, hrule⟩ := bind_eq_ok.mp hrule
            cases hrule
            exact ⟨_, _, rfl⟩
        · obtain ⟨_, -, hrule⟩ := bind_eq_ok.mp hrule
          obtain ⟨_, -, hrule⟩ := bind_eq_ok.mp hrule
          cases hrule
          exact ⟨_, _, rfl⟩
    obtain ⟨floating, pieces, rfl⟩ := hpath
    trivial
  · simp only [hinside, decide_false, Bool.false_eq_true, if_false] at hrule
    have hare : AreNames names := by
      refine ⟨hnames, fun name hname => ?_⟩
      obtain rfl : last = name := Option.some.inj (hlast.symm.trans hname)
      exact ⟨hempty, fun heq => hinside (heq ▸ hname)⟩
    cases names with
    | nil => simp at hlast
    | cons first rest =>
        simp only at hrule
        split at hrule
        · rename_i hfirst
          cases rest with
          | nil => exact absurd (by simp [hfirst]) hinside
          | cons second rest =>
              obtain ⟨ps, hps, hrule⟩ := bind_eq_ok.mp hrule
              obtain ⟨qs, hqs, hrule⟩ := bind_eq_ok.mp hrule
              cases hrule
              exact firstPieces_eq_ok hare.tail hps hqs
        · obtain ⟨ps, hps, hrule⟩ := bind_eq_ok.mp hrule
          obtain ⟨qs, hqs, hrule⟩ := bind_eq_ok.mp hrule
          cases hrule
          exact firstPieces_eq_ok hare hps hqs

theorem Rule.ofChars_eq_ok {cs : List Char} {rule : Rule} (hrule : Rule.ofChars cs = .ok rule) :
    rule.EndsInName := by
  obtain ⟨names, hnames, hrule⟩ := bind_eq_ok.mp hrule
  obtain ⟨hslash, last, hlast, hempty⟩ :=
    fromTop_eq_ok (fun _ => slash_not_mem_of_mem_splitOn) hnames
  split at hrule
  · split at hrule <;> cases hrule <;> trivial
  · split at hrule
    · cases hrule
      trivial
    · split at hrule
      · cases hrule
        trivial
      · exact ofNames_eq_ok hslash hlast hempty hrule

theorem ofText_eq_ok {s : String} {p : Pattern} (hp : ofText s = .ok p) : p.rule.EndsInName := by
  simp only [ofText] at hp
  split at hp
  · cases hp
    trivial
  · split at hp
    · rename_i hrule
      cases hp
      exact Rule.ofChars_eq_ok hrule
    · cases hp
      trivial
    · cases hp

theorem ofTexts_eq_ok {texts : List String} {ps : List Pattern} (hps : ofTexts texts = .ok ps) :
    ∀ p ∈ ps, p.rule.EndsInName := by
  rw [ofTexts] at hps
  induction texts generalizing ps with
  | nil =>
      cases hps
      simp
  | cons text texts ih =>
      rw [List.mapM_cons] at hps
      obtain ⟨p, hp, hps⟩ := bind_eq_ok.mp hps
      obtain ⟨rest, hrest, hps⟩ := bind_eq_ok.mp hps
      cases hps
      refine List.forall_mem_cons.mpr ⟨?_, ih hrest⟩
      split at hp
      · rename_i heq
        cases hp
        exact ofText_eq_ok heq
      · cases hp

/-! ### Several patterns -/

theorem takeIn_eq_any {patterns : List Pattern} (h : ∀ p ∈ patterns, p.includes = true)
    (path : List Char) : takeIn patterns path = patterns.any fun p => p.rule.matches path := by
  have hfold : ∀ taken, patterns.foldl
      (fun taken p => if p.rule.matches path then p.includes else taken) taken =
      (taken || patterns.any fun p => p.rule.matches path) := by
    induction patterns with
    | nil => simp
    | cons p ps ih =>
        intro taken
        obtain ⟨hp, hps⟩ := List.forall_mem_cons.mp h
        rw [List.foldl_cons, ih hps, hp, List.any_cons]
        cases p.rule.matches path <;> simp
  simpa [takeIn] using hfold false

/-- Patterns that take in a folder take in all that is below it. -/
theorem takeIn_below {patterns : List Pattern} (hnegated : ∀ p ∈ patterns, p.includes = true)
    (hname : ∀ p ∈ patterns, p.rule.EndsInName)
    (hslash : ∀ p ∈ patterns, p.rule.endsOnSlash = false) {path : List Char}
    (h : takeIn patterns (path ++ ['/']) = true) (rest : List Char) :
    takeIn patterns (path ++ '/' :: rest) = true := by
  rw [takeIn_eq_any hnegated, List.any_eq_true] at h ⊢
  obtain ⟨p, hp, hm⟩ := h
  exact ⟨p, hp, Rule.matches_below (hname p hp) (hslash p hp) hm rest⟩

end Swatch.Pattern
