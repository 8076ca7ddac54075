import Mathlib.Data.List.Infix

/-!
# Trees of files, directories and symbolic links

A tree maps each path to the entry there, and only directories have entries
below them.  A path lists its names from the innermost one outwards, so that the
directory of a path is its tail.  A link is an entry of its own, and no
operation follows it.
-/

namespace Xhive.Support

inductive Entry (Content Target : Type) where
  | directory
  | file (content : Content)
  | link (target : Target)

instance {Content Target : Type} :
    (e : Option (Entry Content Target)) → Decidable (e = some .directory)
  | none => isFalse nofun
  | some .directory => isTrue rfl
  | some (.file _) => isFalse nofun
  | some (.link _) => isFalse nofun

@[ext] structure FileTree (Name Content Target : Type) where
  entry : List Name → Option (Entry Content Target)
  closed : ∀ name dir, entry (name :: dir) ≠ none → entry dir = some .directory

namespace FileTree

variable {Name Content Target : Type} (t : FileTree Name Content Target) {p q dir : List Name}

/-- The entries above an entry are directories. -/
theorem directory_above {t : FileTree Name Content Target} (h : dir <:+ p) (hne : dir ≠ p)
    (hp : t.entry p ≠ none) : t.entry dir = some .directory := by
  induction p with
  | nil => exact absurd (List.suffix_nil.mp h) hne
  | cons name rest ih =>
      have hrest := t.closed name rest hp
      rcases List.suffix_cons_iff.mp h with heq | hsuffix
      · exact absurd heq hne
      · by_cases hsame : dir = rest
        · rw [hsame]
          exact hrest
        · exact ih hsuffix hsame (by rw [hrest]; exact nofun)

/-- Below an entry that is no directory there is nothing. -/
theorem none_below {t : FileTree Name Content Target} (h : dir <:+ p) (hne : dir ≠ p)
    (hdir : t.entry dir ≠ some .directory) : t.entry p = none :=
  of_not_not fun hp => hdir (directory_above h hne hp)

variable [DecidableEq Name]

/-! ## Removing an entry with everything below it -/

def remove (p : List Name) : FileTree Name Content Target where
  entry q := if p <:+ q then none else t.entry q
  closed name dir h := by
    by_cases habove : p <:+ name :: dir
    · exact absurd (if_pos habove) h
    · rw [if_neg habove] at h
      rw [if_neg fun hsuffix => habove (hsuffix.trans (List.suffix_cons name dir))]
      exact t.closed name dir h

variable {t} in
theorem remove_entry_of_suffix (h : p <:+ q) : (t.remove p).entry q = none :=
  if_pos h

variable {t} in
theorem remove_entry_of_not_suffix (h : ¬p <:+ q) : (t.remove p).entry q = t.entry q :=
  if_neg h

/-! ## Placing a leaf in a directory -/

/-- `leaf` replaces whatever is at the path. -/
def place (name : Name) (dir : List Name) (leaf : Entry Content Target)
    (hdir : t.entry dir = some .directory) : FileTree Name Content Target where
  entry q := if q = name :: dir then some leaf
    else if name :: dir <:+ q then none else t.entry q
  closed other rest h := by
    by_cases heq : other :: rest = name :: dir
    · obtain ⟨-, rfl⟩ := List.cons.inj heq
      have hne : rest ≠ name :: rest := fun hsame => by
        simpa using congrArg List.length hsame
      have hnot : ¬name :: rest <:+ rest := fun hsuffix =>
        absurd hsuffix.length_le (Nat.not_succ_le_self _)
      rw [if_neg hne, if_neg hnot]
      exact hdir
    · rw [if_neg heq] at h
      by_cases hbelow : name :: dir <:+ other :: rest
      · exact absurd (if_pos hbelow) h
      · rw [if_neg hbelow] at h
        have hrest : rest ≠ name :: dir := fun hsame =>
          hbelow (hsame ▸ List.suffix_cons other rest)
        rw [if_neg hrest, if_neg fun hsuffix => hbelow (hsuffix.trans (List.suffix_cons _ _))]
        exact t.closed other rest h

section Place

variable {t} {name : Name} {leaf : Entry Content Target} {hdir : t.entry dir = some .directory}

@[simp] theorem place_entry_self : (t.place name dir leaf hdir).entry (name :: dir) = some leaf :=
  if_pos rfl

theorem place_entry_of_not_suffix (h : ¬name :: dir <:+ q) :
    (t.place name dir leaf hdir).entry q = t.entry q := by
  have hne : q ≠ name :: dir := fun heq => h (heq ▸ List.suffix_rfl)
  exact (if_neg hne).trans (if_neg h)

theorem place_entry_of_below (h : name :: dir <:+ q) (hne : q ≠ name :: dir) :
    (t.place name dir leaf hdir).entry q = none :=
  (if_neg hne).trans (if_pos h)

end Place

/-! ## Creating a directory with the directories above it -/

/-- Nothing but directories stands on the way to the path. -/
def Passable (p : List Name) : Prop :=
  ∀ q ∈ p.tails, t.entry q = none ∨ t.entry q = some .directory

instance : Decidable (t.Passable p) :=
  inferInstanceAs (Decidable (∀ q ∈ p.tails, _))

def makeDirectories (p : List Name) (h : t.Passable p) : FileTree Name Content Target where
  entry q := if q <:+ p ∧ t.entry q = none then some .directory else t.entry q
  closed name dir hentry := by
    by_cases hnew : name :: dir <:+ p ∧ t.entry (name :: dir) = none
    · have hsuffix : dir <:+ p := (List.suffix_cons name dir).trans hnew.1
      rcases h dir ((List.mem_tails _ _).mpr hsuffix) with hnone | hdir
      · exact if_pos ⟨hsuffix, hnone⟩
      · rw [if_neg (by rw [hdir]; exact fun hnone => nomatch hnone.2)]
        exact hdir
    · rw [if_neg hnew] at hentry
      have hdir := t.closed name dir hentry
      rw [if_neg (by rw [hdir]; exact fun hnone => nomatch hnone.2)]
      exact hdir

section MakeDirectories

variable {t} {h : t.Passable p}

/-- What is there already stays. -/
theorem makeDirectories_entry_of_some {e : Entry Content Target} (he : t.entry q = some e) :
    (t.makeDirectories p h).entry q = some e := by
  have hkeep : ¬(q <:+ p ∧ t.entry q = none) := fun hnew => by
    rw [he] at hnew
    exact nomatch hnew.2
  exact (if_neg hkeep).trans he

theorem makeDirectories_entry_of_not_suffix (hq : ¬q <:+ p) :
    (t.makeDirectories p h).entry q = t.entry q :=
  if_neg fun hnew => hq hnew.1

/-- Every directory on the way is there afterwards. -/
theorem makeDirectories_entry_of_suffix (hq : q <:+ p) :
    (t.makeDirectories p h).entry q = some .directory := by
  rcases h q ((List.mem_tails _ _).mpr hq) with hnone | hdir
  · exact if_pos ⟨hq, hnone⟩
  · exact makeDirectories_entry_of_some hdir

end MakeDirectories

end FileTree

end Xhive.Support
