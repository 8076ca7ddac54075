import Xhive.Modules.Merge

/-!
# What the two merges leave

Where the source brings no link and no directory of its own, both traversals
leave the source laid over the destination, in any order of the listing.  A link
reaches the destination through `move_merge` only, and a directory replaces
nothing.
-/

namespace Xhive.Modules

open Xhive.Support

variable {Content : Type} {dst src t t' : Tree Content} {done : List Path} {p : Path}

/-! ## The purpose of a merge -/

/-- A destination path that the source also names, or that lies below a file or
a link of the source. -/
def Collides (src : Tree Content) (p : Path) : Prop :=
  ∃ q, q <:+ p ∧ src.entry q ≠ none ∧ (q = p ∨ src.entry q ≠ some .directory)

structure MergesAll (dst src result : Tree Content) : Prop where
  contains : ∀ p e, src.entry p = some e → result.entry p = some e
  keeps : ∀ p e, dst.entry p = some e → ¬Collides src p → result.entry p = some e

/-- Every link of the source is at the destination already, and no directory of
the source meets anything else there. -/
structure Mergeable (dst src : Tree Content) : Prop where
  links : ∀ p target, src.entry p = some (.link target) → dst.entry p = some (.link target)
  directories : ∀ p, src.entry p = some .directory →
    dst.entry p = none ∨ dst.entry p = some .directory

/-! ## The destination during a traversal -/

/-- The source entries of `done` are laid over the destination. -/
structure Merged (dst src : Tree Content) (done : List Path) (t : Tree Content) : Prop where
  root : t.entry [] = some .directory
  origin : ∀ p e, t.entry p = some e → dst.entry p = some e ∨ src.entry p = some e
  brought : ∀ p ∈ done, (∀ target, src.entry p ≠ some (.link target)) → t.entry p = src.entry p
  kept : ∀ p e, dst.entry p = some e → (∀ q content, q <:+ p → src.entry q ≠ some (.file content)) →
    t.entry p = some e

/-- A path of a source directory holds a directory or nothing. -/
theorem Merged.directory_or_none (h : Merged dst src done t) (hm : Mergeable dst src)
    (hp : src.entry p = some .directory) : t.entry p = none ∨ t.entry p = some .directory := by
  cases hentry : t.entry p with
  | none => exact Or.inl rfl
  | some e =>
      right
      rcases h.origin p e hentry with hdst | hsrc
      · rcases hm.directories p hp with hnone | hdir
        · rw [hnone] at hdst
          exact nomatch hdst
        · rw [← hdst, hdir]
      · rw [← hsrc, hp]

theorem Merged.more (h : Merged dst src done t)
    (hp : (∀ target, src.entry p ≠ some (.link target)) → t.entry p = src.entry p) :
    Merged dst src (done ++ [p]) t where
  root := h.root
  origin := h.origin
  brought q hq hlink := by
    rcases List.mem_append.mp hq with hold | hnew
    · exact h.brought q hold hlink
    · rw [List.mem_singleton] at hnew
      subst hnew
      exact hp hlink
  kept := h.kept

theorem Merged.mkdir (h : Merged dst src done t) (hp : src.entry p = some .directory)
    (hmkdir : osMkdir t p = .ok t') :
    Merged dst src done t' ∧ t'.entry p = some .directory := by
  rw [osMkdir] at hmkdir
  split at hmkdir
  · rename_i hpassable
    obtain rfl := Except.ok.inj hmkdir
    have habove : ∀ q, q <:+ p → src.entry q = some .directory := by
      intro q hq
      by_cases hsame : q = p
      · rw [hsame, hp]
      · exact FileTree.directory_above hq hsame (by rw [hp]; exact nofun)
    refine ⟨⟨?_, fun q e he => ?_, fun q hq hlink => ?_, fun q e he hfile => ?_⟩, ?_⟩
    · exact FileTree.makeDirectories_entry_of_some h.root
    · by_cases hq : q <:+ p
      · rw [FileTree.makeDirectories_entry_of_suffix hq] at he
        exact Or.inr ((habove q hq).trans he)
      · rw [FileTree.makeDirectories_entry_of_not_suffix hq] at he
        exact h.origin q e he
    · have hold := h.brought q hq hlink
      by_cases hsuffix : q <:+ p
      · rw [FileTree.makeDirectories_entry_of_suffix hsuffix, habove q hsuffix]
      · rw [FileTree.makeDirectories_entry_of_not_suffix hsuffix, hold]
    · exact FileTree.makeDirectories_entry_of_some (h.kept q e he hfile)
    · exact FileTree.makeDirectories_entry_of_suffix List.suffix_rfl
  · exact nomatch hmkdir

/-- Placing a leaf of the source keeps what is done. -/
theorem Merged.place {name : String} {dir : Path} {leaf : Entry Content String}
    (h : Merged dst src done t) (hm : Mergeable dst src)
    (hleaf : src.entry (name :: dir) = some leaf) (hne : leaf ≠ .directory)
    (hdir : t.entry dir = some .directory) :
    Merged dst src done (t.place name dir leaf hdir) where
  root := by
    rw [FileTree.place_entry_of_not_suffix fun hsuffix => nomatch List.suffix_nil.mp hsuffix]
    exact h.root
  origin q e he := by
    by_cases hq : name :: dir <:+ q
    · by_cases hsame : q = name :: dir
      · rw [hsame, FileTree.place_entry_self] at he
        rw [hsame]
        exact Or.inr (hleaf.trans he)
      · rw [FileTree.place_entry_of_below hq hsame] at he
        exact nomatch he
    · rw [FileTree.place_entry_of_not_suffix hq] at he
      exact h.origin q e he
  brought q hq hlink := by
    by_cases hsuffix : name :: dir <:+ q
    · by_cases hsame : q = name :: dir
      · rw [hsame, FileTree.place_entry_self, hleaf]
      · have hnone := FileTree.none_below hsuffix (Ne.symm hsame)
          (by rw [hleaf]; exact fun heq => hne (Option.some.inj heq))
        rw [FileTree.place_entry_of_below hsuffix hsame, hnone]
    · rw [FileTree.place_entry_of_not_suffix hsuffix, h.brought q hq hlink]
  kept q e he hfile := by
    by_cases hsuffix : name :: dir <:+ q
    · cases leaf with
      | directory => exact absurd rfl hne
      | file content => exact absurd hleaf (hfile _ content hsuffix)
      | link target =>
          -- the link is at the destination already, so nothing lies below it
          have hlink := hm.links _ target hleaf
          by_cases hsame : q = name :: dir
          · rw [hsame, FileTree.place_entry_self, ← hlink, ← hsame, he]
          · have hnone := FileTree.none_below hsuffix (Ne.symm hsame)
              (by rw [hlink]; exact fun heq => nomatch heq)
            rw [hnone] at he
            exact nomatch he
    · rw [FileTree.place_entry_of_not_suffix hsuffix]
      exact h.kept q e he hfile

/-- Removing what stands at the path of a source file keeps what is done. -/
theorem Merged.remove {name : String} {dir : Path} {content : Content}
    (h : Merged dst src done t) (hp : src.entry (name :: dir) = some (.file content))
    (hnot : name :: dir ∉ done) : Merged dst src done (t.remove (name :: dir)) where
  root := by
    have hroot : ¬name :: dir <:+ [] := fun hsuffix => nomatch List.suffix_nil.mp hsuffix
    rw [FileTree.remove_entry_of_not_suffix hroot]
    exact h.root
  origin q e he := by
    by_cases hq : name :: dir <:+ q
    · rw [FileTree.remove_entry_of_suffix hq] at he
      exact nomatch he
    · rw [FileTree.remove_entry_of_not_suffix hq] at he
      exact h.origin q e he
  brought q hq hlink := by
    by_cases hsuffix : name :: dir <:+ q
    · have hne : name :: dir ≠ q := fun heq => hnot (heq ▸ hq)
      have hnone := FileTree.none_below hsuffix hne
        (by rw [hp]; exact fun heq => nomatch heq)
      rw [FileTree.remove_entry_of_suffix hsuffix, hnone]
    · rw [FileTree.remove_entry_of_not_suffix hsuffix, h.brought q hq hlink]
  kept q e he hfile := by
    have hsuffix : ¬name :: dir <:+ q := fun hsuffix => hfile _ content hsuffix hp
    rw [FileTree.remove_entry_of_not_suffix hsuffix]
    exact h.kept q e he hfile

/-! ## One entry of the listing -/

theorem mergeDirectory_merged {s : Merge Content} (h : Merged dst src done s.dst)
    (hm : Mergeable dst src) (hp : src.entry p = some .directory) :
    Ensures (mergeDirectory s p)
      (fun s' => Merged dst src (done ++ [p]) s'.dst ∧ s'.src = s.src ∧
        s'.success = s.success ∧ s'.linkList = s.linkList) (fun _ => True) := by
  rw [mergeDirectory]
  refine Ensures.ite (fun hexists => ?_) fun _ => ?_
  · refine ⟨h.more fun _ => ?_, rfl, rfl, rfl⟩
    rcases h.directory_or_none hm hp with hnone | hdir
    · rw [osExists, hnone] at hexists
      exact nomatch hexists
    · rw [hdir, hp]
  · cases hmkdir : osMkdir s.dst p with
    | error e => trivial
    | ok t =>
        obtain ⟨hmerged, hdir⟩ := h.mkdir hp hmkdir
        refine ⟨hmerged.more fun _ => hdir.trans hp.symm, rfl, ?_, rfl⟩
        rw [osExists, hdir]
        exact Bool.and_true _

theorem mergePrepare_merged {name : String} {dir : Path} {content : Content}
    (h : Merged dst src done t) (hm : Mergeable dst src)
    (hp : src.entry (name :: dir) = some (.file content)) (hnot : name :: dir ∉ done) :
    Ensures (mergePrepare t (name :: dir))
      (fun t' => Merged dst src done t' ∧ t'.entry dir = some .directory) (fun _ => True) := by
  have hsource : src.entry dir = some .directory :=
    src.closed name dir (by rw [hp]; exact nofun)
  have hdirectory : Ensures (mergeDstDir t dir)
      (fun t' => Merged dst src done t' ∧ t'.entry dir = some .directory) (fun _ => True) := by
    refine Ensures.ite (fun hexists => ⟨h, ?_⟩) fun _ => ?_
    · rcases h.directory_or_none hm hsource with hnone | hdir
      · rw [osExists, hnone] at hexists
        exact nomatch hexists
      · exact hdir
    · cases hmkdir : osMkdir t dir with
      | error e => trivial
      | ok t' => exact h.mkdir hsource hmkdir
  rw [mergePrepare]
  refine hdirectory.seq ?_
  rintro t' ⟨hmerged, hdir⟩
  rw [ensures_ok]
  split
  · refine ⟨hmerged.remove hp hnot, ?_⟩
    rw [osTryrm, FileTree.remove_entry_of_not_suffix, hdir]
    exact fun hsuffix => absurd hsuffix.length_le (Nat.not_succ_le_self _)
  · exact ⟨hmerged, hdir⟩

theorem osTrycp_eq {current : Tree Content} {name : String} {dir : Path} {content : Content}
    (hp : current.entry (name :: dir) = some (.file content))
    (hdir : t.entry dir = some .directory) :
    osTrycp current t (name :: dir) = (t.place name dir (.file content) hdir, true) := by
  have htarget : (if t.entry (name :: dir).tail = some .directory then name :: dir
      else (name :: dir).tail) = name :: dir := if_pos hdir
  rw [osTrycp, hp, htarget]
  exact dif_pos hdir

/-- A file of the source brought over, with the transfer of either function. -/
theorem mergeFile_merged {name : String} {dir : Path} {content : Content}
    (h : Merged dst src done t) (hm : Mergeable dst src)
    (hp : src.entry (name :: dir) = some (.file content)) (hnot : name :: dir ∉ done)
    {current : Tree Content} (hcurrent : current.entry (name :: dir) = some (.file content)) :
    Ensures (mergePrepare t (name :: dir))
      (fun t' => (osTrycp current t' (name :: dir)).2 = true ∧
        Merged dst src (done ++ [name :: dir]) (osTrycp current t' (name :: dir)).1)
      (fun _ => True) := by
  refine (mergePrepare_merged h hm hp hnot).imp ?_
  rintro t' ⟨hmerged, hdir⟩
  rw [osTrycp_eq hcurrent hdir]
  refine ⟨rfl, (hmerged.place hm hp nofun hdir).more fun _ => ?_⟩
  rw [FileTree.place_entry_self, hp]

/-! ## The two traversals -/

/-- The locals of `copy_merge` after the entries of `done`. -/
structure CopyRun (dst src : Tree Content) (done : List Path) (s : Merge Content) : Prop where
  source : s.src = src
  success : s.success = true
  merged : Merged dst src done s.dst

theorem copyEntry_run {s : Merge Content} (h : CopyRun dst src done s) (hm : Mergeable dst src)
    (hp : src.entry p ≠ none) (hne : p ≠ []) (hnot : p ∉ done) :
    Ensures (copyEntry s p) (CopyRun dst src (done ++ [p])) (fun _ => True) := by
  rw [copyEntry, h.source]
  cases hentry : src.entry p with
  | none => exact absurd hentry hp
  | some e =>
      cases e with
      | link target =>
          refine ⟨rfl, h.success, h.merged.more fun hlink => ?_⟩
          exact absurd hentry (hlink target)
      | directory =>
          refine (mergeDirectory_merged h.merged hm hentry).imp ?_
          rintro s' ⟨hmerged, hsource, hsuccess, -⟩
          exact ⟨hsource.trans h.source, hsuccess.trans h.success, hmerged⟩
      | file content =>
          obtain ⟨name, dir, rfl⟩ := List.exists_cons_of_ne_nil hne
          refine (mergeFile_merged h.merged hm hentry hnot hentry).seq ?_
          rintro t' ⟨hok, hmerged⟩
          refine ⟨rfl, ?_, hmerged⟩
          dsimp only
          rw [h.success, hok]
          rfl

/-- The locals of `move_merge` after the entries of `done`. -/
structure MoveRun (dst src : Tree Content) (done : List Path) (s : Merge Content) : Prop where
  source : ∀ p, p ∉ done → s.src.entry p = src.entry p
  success : s.success = true
  links : ∀ p target, (p, target) ∈ s.linkList → src.entry p = some (.link target)
  merged : Merged dst src done s.dst

theorem moveEntry_run {s : Merge Content} (h : MoveRun dst src done s) (hm : Mergeable dst src)
    (hp : src.entry p ≠ none) (hne : p ≠ []) (hnot : p ∉ done) :
    Ensures (moveEntry s p) (MoveRun dst src (done ++ [p])) (fun _ => True) := by
  have hnow : s.src.entry p = src.entry p := h.source p hnot
  have hlater : ∀ q, q ∉ done ++ [p] → q ∉ done ∧ q ≠ p := fun q hq =>
    ⟨fun hold => hq (List.mem_append_left _ hold),
      fun hsame => hq (List.mem_append_right _ (List.mem_singleton.mpr hsame))⟩
  rw [moveEntry, hnow]
  cases hentry : src.entry p with
  | none => exact absurd hentry hp
  | some e =>
      cases e with
      | link target =>
          refine ⟨fun q hq => h.source q (hlater q hq).1, h.success, fun q other hq => ?_,
            h.merged.more fun hlink => absurd hentry (hlink target)⟩
          rcases List.mem_append.mp hq with hold | hnew
          · exact h.links q other hold
          · obtain ⟨rfl, rfl⟩ := Prod.mk.inj (List.mem_singleton.mp hnew)
            exact hentry
      | directory =>
          refine (mergeDirectory_merged h.merged hm hentry).imp ?_
          rintro s' ⟨hmerged, hsource, hsuccess, hlinks⟩
          refine ⟨fun q hq => ?_, hsuccess.trans h.success, ?_, hmerged⟩
          · rw [hsource]
            exact h.source q (hlater q hq).1
          · rw [hlinks]
            exact h.links
      | file content =>
          obtain ⟨name, dir, rfl⟩ := List.exists_cons_of_ne_nil hne
          refine (mergeFile_merged h.merged hm hentry hnot (hnow.trans hentry)).seq ?_
          rintro t' ⟨hok, hmerged⟩
          refine ⟨fun q hq => ?_, ?_, h.links, hmerged⟩
          · -- below a file the source has nothing to lose
            obtain ⟨hold, hother⟩ := hlater q hq
            have hsource : (osTrymv s.src t' (name :: dir)).1 = s.src.remove (name :: dir) :=
              if_pos hok
            dsimp only
            rw [hsource]
            by_cases hsuffix : name :: dir <:+ q
            · have hnone := FileTree.none_below hsuffix (Ne.symm hother)
                (by rw [hentry]; exact fun heq => nomatch heq)
              rw [FileTree.remove_entry_of_suffix hsuffix, hnone]
            · rw [FileTree.remove_entry_of_not_suffix hsuffix, h.source q hold]
          · change (s.success && (osTrycp s.src t' (name :: dir)).2) = true
            rw [h.success, hok]
            rfl

theorem osLn_merged {target : String} (h : Merged dst src done t) (hm : Mergeable dst src)
    (hp : src.entry p = some (.link target)) :
    Ensures (osLn t p target) (Merged dst src done) (fun _ => True) := by
  cases p with
  | nil => trivial
  | cons name dir =>
      rw [osLn]
      split
      · exact h.place hm hp nofun _
      · trivial

/-- Making the collected links keeps what is done. -/
theorem MoveRun.moveLinks {s : Merge Content} (h : MoveRun dst src done s)
    (hm : Mergeable dst src) :
    Ensures (s.linkList.foldlM (fun dst link => osLn dst link.1 link.2) s.dst)
      (Merged dst src done) (fun _ => True) := by
  refine Ensures.foldlM (fun _ t => Merged dst src done t) h.merged ?_
  intro before link after t heq ht
  refine osLn_merged ht hm (h.links link.1 link.2 ?_)
  rw [heq]
  exact List.mem_append_right _ List.mem_cons_self

/-! ## The destination after a merge -/

theorem osMkdir_root_merged (hsrc : src.entry [] = some .directory)
    (hmkdir : osMkdir dst [] = .ok t) : Merged dst src [] t := by
  rw [osMkdir] at hmkdir
  split at hmkdir
  · obtain rfl := Except.ok.inj hmkdir
    refine ⟨FileTree.makeDirectories_entry_of_suffix List.suffix_rfl, fun q e he => ?_,
      nofun, fun q e he _ => FileTree.makeDirectories_entry_of_some he⟩
    by_cases hq : q <:+ []
    · rw [FileTree.makeDirectories_entry_of_suffix hq] at he
      rw [List.suffix_nil.mp hq]
      exact Or.inr (hsrc.trans he)
    · rw [FileTree.makeDirectories_entry_of_not_suffix hq] at he
      exact Or.inl he
  · exact nomatch hmkdir

/-- The entries of a listing before `p` do not contain it. -/
theorem Listing.step (files : Listing src) {done rest : List Path}
    (h : files.paths = done ++ p :: rest) : src.entry p ≠ none ∧ p ≠ [] ∧ p ∉ done := by
  have hmem : p ∈ files.paths := by
    rw [h]
    exact List.mem_append_right _ List.mem_cons_self
  obtain ⟨hne, hentry⟩ := (files.mem_iff p).mp hmem
  have hnodup := files.nodup
  rw [h] at hnodup
  refine ⟨hentry, hne, fun hold => ?_⟩
  exact (List.nodup_append.mp hnodup).2.2 p hold p List.mem_cons_self rfl

theorem copyMerge_merged {copied : Merge Content} {files : Listing src} {force : Bool}
    (hm : Mergeable dst src) (h : copyMerge dst src files force = .ok (true, copied)) :
    Merged dst src files.paths copied.dst := by
  rw [copyMerge] at h
  split at h
  · rename_i hroot
    obtain ⟨t, hmkdir, h⟩ := ok_of_bind h
    split at h
    · exact nomatch h
    · obtain ⟨s, hs, h⟩ := ok_of_bind h
      obtain ⟨-, rfl⟩ := Prod.mk.inj (Except.ok.inj h)
      have hstart : CopyRun dst src [] { src := src, dst := t, success := true, linkList := [] } :=
        ⟨rfl, rfl, osMkdir_root_merged hroot hmkdir⟩
      have hrun := Ensures.foldlM (CopyRun dst src) hstart (fun done p rest s heq hs => by
          obtain ⟨hentry, hne, hnot⟩ := files.step heq
          exact copyEntry_run hs hm hentry hne hnot)
      exact (hrun.of_eq_ok hs).merged
  · exact nomatch h

theorem moveMerge_merged {moved : Merge Content} {files : Listing src} {force : Bool}
    (hm : Mergeable dst src) (h : moveMerge dst src files force = .ok (true, moved)) :
    Merged dst src files.paths moved.dst := by
  rw [moveMerge] at h
  split at h
  · rename_i hroot
    obtain ⟨t, hmkdir, h⟩ := ok_of_bind h
    split at h
    · exact nomatch h
    · obtain ⟨s, hs, h⟩ := ok_of_bind h
      split at h
      · obtain ⟨u, hu, h⟩ := ok_of_bind h
        obtain ⟨-, rfl⟩ := Prod.mk.inj (Except.ok.inj h)
        have hstart : MoveRun dst src []
            { src := src, dst := t, success := true, linkList := [] } :=
          ⟨fun _ _ => rfl, rfl, fun _ _ hmem => absurd hmem List.not_mem_nil,
            osMkdir_root_merged hroot hmkdir⟩
        have hrun := Ensures.foldlM (MoveRun dst src) hstart (fun done p rest s heq hs => by
            obtain ⟨hentry, hne, hnot⟩ := files.step heq
            exact moveEntry_run hs hm hentry hne hnot)
        have hdone := hrun.of_eq_ok hs
        obtain ⟨v, hv, hlinked⟩ := ok_of_bind hu
        obtain rfl := Except.ok.inj hlinked
        exact (hdone.moveLinks hm).of_eq_ok hv
      · exact nomatch h
  · exact nomatch h

/-- A finished merge is the source laid over the destination. -/
theorem Merged.entry_eq {files : Listing src} (h : Merged dst src files.paths t)
    (hm : Mergeable dst src) (hroot : src.entry [] = some .directory) :
    (∀ p e, src.entry p = some e → t.entry p = some e) ∧
      ∀ p, src.entry p = none → t.entry p = none ∧ Collides src p ∨
        t.entry p = dst.entry p ∧ ¬Collides src p := by
  have hcontains : ∀ p e, src.entry p = some e → t.entry p = some e := by
    intro p e hp
    cases p with
    | nil =>
        rw [← hp, hroot]
        exact h.root
    | cons name dir =>
        have hmem : name :: dir ∈ files.paths :=
          (files.mem_iff _).mpr ⟨List.cons_ne_nil name dir, by rw [hp]; exact nofun⟩
        cases e with
        | link target =>
            refine h.kept _ _ (hm.links _ target hp) fun q content hq hfile => ?_
            -- a file of the source has no link below it
            by_cases hsame : q = name :: dir
            · rw [hsame, hp] at hfile
              exact nomatch hfile
            · have hnone := FileTree.none_below hq hsame
                (by rw [hfile]; exact fun heq => nomatch heq)
              rw [hp] at hnone
              exact nomatch hnone
        | directory => exact (h.brought _ hmem (by rw [hp]; exact nofun)).trans hp
        | file content => exact (h.brought _ hmem (by rw [hp]; exact nofun)).trans hp
  refine ⟨hcontains, fun p hp => ?_⟩
  by_cases hcollides : Collides src p
  · obtain ⟨q, hq, hentry, hkind⟩ := hcollides
    have hne : q ≠ p := fun heq => hentry (heq ▸ hp)
    have hleaf := hkind.resolve_left hne
    obtain ⟨e, he⟩ := Option.ne_none_iff_exists'.mp hentry
    refine Or.inl ⟨FileTree.none_below hq hne ?_, ⟨q, hq, hentry, hkind⟩⟩
    rw [hcontains q e he, ← he]
    exact hleaf
  · refine Or.inr ⟨?_, hcollides⟩
    have hfile : ∀ q content, q <:+ p → src.entry q ≠ some (.file content) :=
      fun q content hq hentry => hcollides ⟨q, hq, by rw [hentry]; exact nofun,
        Or.inr (by rw [hentry]; exact fun heq => nomatch heq)⟩
    cases hdst : dst.entry p with
    | some e => exact h.kept p e hdst hfile
    | none =>
        cases hentry : t.entry p with
        | none => rfl
        | some e =>
            rcases h.origin p e hentry with hold | hnew
            · rw [hdst] at hold
              exact nomatch hold
            · rw [hp] at hnew
              exact nomatch hnew

theorem Merged.mergesAll {files : Listing src} (h : Merged dst src files.paths t)
    (hm : Mergeable dst src) (hroot : src.entry [] = some .directory) : MergesAll dst src t := by
  obtain ⟨hcontains, hother⟩ := h.entry_eq hm hroot
  refine ⟨hcontains, fun p e hp hcollides => ?_⟩
  have hsrc : src.entry p = none :=
    of_not_not fun hentry => hcollides ⟨p, List.suffix_rfl, hentry, Or.inl rfl⟩
  rcases hother p hsrc with ⟨-, hcollides'⟩ | ⟨hsame, -⟩
  · exact absurd hcollides' hcollides
  · rw [hsame, hp]

/-- Two finished merges are the same tree, whatever the order of the listings. -/
theorem Merged.unique {files files' : Listing src} (h : Merged dst src files.paths t)
    (h' : Merged dst src files'.paths t') (hm : Mergeable dst src)
    (hroot : src.entry [] = some .directory) : t = t' := by
  obtain ⟨hcontains, hother⟩ := h.entry_eq hm hroot
  obtain ⟨hcontains', hother'⟩ := h'.entry_eq hm hroot
  ext1
  funext p
  cases hp : src.entry p with
  | some e => rw [hcontains p e hp, hcontains' p e hp]
  | none =>
      rcases hother p hp with ⟨hnone, hcollides⟩ | ⟨hsame, hcollides⟩ <;>
        rcases hother' p hp with ⟨hnone', hcollides'⟩ | ⟨hsame', hcollides'⟩
      · rw [hnone, hnone']
      · exact absurd hcollides hcollides'
      · exact absurd hcollides' hcollides
      · rw [hsame, hsame']

/-! ## What a copy cannot do -/

/-- A copy makes no link, and what stands where the source has a directory never
becomes one. -/
structure CopyLimits (dst src t : Tree Content) : Prop where
  links : ∀ p target, t.entry p = some (.link target) → dst.entry p = some (.link target)
  leaves : ∀ p, src.entry p = some .directory →
    (∃ e, dst.entry p = some e ∧ e ≠ .directory) → ∃ e, t.entry p = some e ∧ e ≠ .directory

theorem CopyLimits.mkdir (h : CopyLimits dst src t) (hmkdir : osMkdir t p = .ok t') :
    CopyLimits dst src t' := by
  rw [osMkdir] at hmkdir
  split at hmkdir
  · obtain rfl := Except.ok.inj hmkdir
    refine ⟨fun q target hq => ?_, fun q hq hleaf => ?_⟩
    · by_cases hsuffix : q <:+ p
      · rw [FileTree.makeDirectories_entry_of_suffix hsuffix] at hq
        exact nomatch hq
      · rw [FileTree.makeDirectories_entry_of_not_suffix hsuffix] at hq
        exact h.links q target hq
    · obtain ⟨e, he, hne⟩ := h.leaves q hq hleaf
      exact ⟨e, FileTree.makeDirectories_entry_of_some he, hne⟩
  · exact nomatch hmkdir

/-- A source directory is neither a source file nor below one. -/
theorem not_below_file {content : Content} {q : Path} (hp : src.entry p = some (.file content))
    (hq : src.entry q = some .directory) : ¬p <:+ q := by
  intro hsuffix
  by_cases hsame : p = q
  · rw [hsame, hq] at hp
    exact nomatch hp
  · have hnone := FileTree.none_below hsuffix hsame (by rw [hp]; exact fun heq => nomatch heq)
    rw [hq] at hnone
    exact nomatch hnone

theorem CopyLimits.remove {content : Content} (h : CopyLimits dst src t)
    (hp : src.entry p = some (.file content)) : CopyLimits dst src (t.remove p) where
  links q target hq := by
    by_cases hsuffix : p <:+ q
    · rw [FileTree.remove_entry_of_suffix hsuffix] at hq
      exact nomatch hq
    · rw [FileTree.remove_entry_of_not_suffix hsuffix] at hq
      exact h.links q target hq
  leaves q hq hleaf := by
    rw [FileTree.remove_entry_of_not_suffix (not_below_file hp hq)]
    exact h.leaves q hq hleaf

theorem CopyLimits.place {name : String} {dir : Path} {content : Content}
    (h : CopyLimits dst src t) (hdir : t.entry dir = some .directory)
    (hpath : ∀ q, src.entry q = some .directory → name :: dir <:+ q → q ≠ name :: dir →
      t.entry (name :: dir) ≠ some .directory) :
    CopyLimits dst src (t.place name dir (.file content) hdir) where
  links q target hq := by
    by_cases hsuffix : name :: dir <:+ q
    · by_cases hsame : q = name :: dir
      · rw [hsame, FileTree.place_entry_self] at hq
        exact nomatch hq
      · rw [FileTree.place_entry_of_below hsuffix hsame] at hq
        exact nomatch hq
    · rw [FileTree.place_entry_of_not_suffix hsuffix] at hq
      exact h.links q target hq
  leaves q hq hleaf := by
    by_cases hsuffix : name :: dir <:+ q
    · by_cases hsame : q = name :: dir
      · rw [hsame, FileTree.place_entry_self]
        exact ⟨_, rfl, nofun⟩
      · obtain ⟨e, he, -⟩ := h.leaves q hq hleaf
        have hnone := FileTree.none_below hsuffix (Ne.symm hsame) (hpath q hq hsuffix hsame)
        rw [he] at hnone
        exact nomatch hnone
    · rw [FileTree.place_entry_of_not_suffix hsuffix]
      exact h.leaves q hq hleaf

theorem CopyLimits.trycp {content : Content} (h : CopyLimits dst src t)
    (hp : src.entry p = some (.file content)) : CopyLimits dst src (osTrycp src t p).1 := by
  rw [osTrycp, hp]
  by_cases hdir : t.entry p.tail = some .directory
  · rw [if_pos hdir]
    cases p with
    | nil => exact h
    | cons name dir =>
        dsimp only
        rw [dif_pos (show t.entry dir = some .directory from hdir)]
        exact h.place hdir fun q hq hsuffix _ => absurd hsuffix (not_below_file hp hq)
  · rw [if_neg hdir]
    cases htail : p.tail with
    | nil => exact h
    | cons name dir =>
        dsimp only
        split
        · rename_i habove
          rw [htail] at hdir
          exact h.place habove fun _ _ _ _ => hdir
        · exact h

theorem copyEntry_limits {s : Merge Content} (hsrc : s.src = src)
    (h : CopyLimits dst src s.dst) (hp : src.entry p ≠ none) :
    Ensures (copyEntry s p) (fun s' => s'.src = src ∧ CopyLimits dst src s'.dst)
      (fun _ => True) := by
  have hmkdir : ∀ q, Ensures (osMkdir s.dst q) (CopyLimits dst src) (fun _ => True) := by
    intro q
    cases hmkdir : osMkdir s.dst q with
    | ok t => exact h.mkdir hmkdir
    | error e => trivial
  rw [copyEntry, hsrc]
  cases hentry : src.entry p with
  | none => exact absurd hentry hp
  | some e =>
      cases e with
      | link target => exact ⟨rfl, h⟩
      | directory =>
          rw [mergeDirectory]
          refine Ensures.ite (fun _ => ⟨hsrc, h⟩) fun _ => ?_
          exact (hmkdir p).seq fun t ht => ⟨hsrc, ht⟩
      | file content =>
          have hprepare : Ensures (mergePrepare s.dst p) (CopyLimits dst src) (fun _ => True) := by
            have hdir : Ensures (mergeDstDir s.dst p.tail) (CopyLimits dst src)
                (fun _ => True) :=
              Ensures.ite (fun _ => h) fun _ => hmkdir p.tail
            rw [mergePrepare]
            refine hdir.seq fun t ht => ?_
            rw [ensures_ok]
            split
            · exact ht.remove hentry
            · exact ht
          exact hprepare.seq fun t ht => ⟨rfl, ht.trycp hentry⟩

theorem copyMerge_limits {copied : Merge Content} {files : Listing src} {force : Bool}
    (h : copyMerge dst src files force = .ok (true, copied)) : CopyLimits dst src copied.dst := by
  rw [copyMerge] at h
  split at h
  · obtain ⟨t, hmkdir, h⟩ := ok_of_bind h
    split at h
    · exact nomatch h
    · obtain ⟨s, hs, h⟩ := ok_of_bind h
      obtain ⟨-, rfl⟩ := Prod.mk.inj (Except.ok.inj h)
      have hinit : CopyLimits dst src dst := ⟨fun _ _ hq => hq, fun _ _ hleaf => hleaf⟩
      have hrun : Ensures (files.paths.foldlM copyEntry
          { src := src, dst := t, success := true, linkList := [] })
          (fun s => s.src = src ∧ CopyLimits dst src s.dst) (fun _ => True) := by
        refine Ensures.foldlM (fun _ (s : Merge Content) => s.src = src ∧ CopyLimits dst src s.dst)
          ⟨rfl, hinit.mkdir hmkdir⟩ ?_
        rintro done p rest s heq ⟨hsrc, hs⟩
        exact copyEntry_limits hsrc hs (files.step heq).1
      exact (hrun.of_eq_ok hs).2
  · exact nomatch h

/-! ## Agreement -/

/-- Whenever both answer true, both leave one tree that holds the whole source
and the rest of the destination. -/
def MergesAgree (dst src : Tree Content) (copyFiles moveFiles : Listing src) (force : Bool) :
    Prop :=
  ∀ copied moved, copyMerge dst src copyFiles force = .ok (true, copied) →
    moveMerge dst src moveFiles force = .ok (true, moved) →
    copied.dst = moved.dst ∧ MergesAll dst src copied.dst

theorem root_of_copyMerge {copied : Merge Content} {files : Listing src} {force : Bool}
    (h : copyMerge dst src files force = .ok (true, copied)) :
    src.entry [] = some .directory := by
  rw [copyMerge] at h
  split at h
  · assumption
  · exact nomatch h

/-- `copy_merge` and `move_merge` agree, where both succeed, exactly when no link
of the source has to be made and no directory of the source meets anything else. -/
theorem merges_agree_iff (dst src : Tree Content) (copyFiles moveFiles : Listing src)
    (force : Bool) (hcopy : ∃ copied, copyMerge dst src copyFiles force = .ok (true, copied))
    (hmove : ∃ moved, moveMerge dst src moveFiles force = .ok (true, moved)) :
    MergesAgree dst src copyFiles moveFiles force ↔ Mergeable dst src := by
  constructor
  · intro hagree
    obtain ⟨copied, hcopied⟩ := hcopy
    obtain ⟨moved, hmoved⟩ := hmove
    obtain ⟨-, hall⟩ := hagree copied moved hcopied hmoved
    have hlimits := copyMerge_limits hcopied
    refine ⟨fun p target hp => hlimits.links p target (hall.contains p _ hp), fun p hp => ?_⟩
    by_contra hnot
    obtain ⟨hsome, hkind⟩ := not_or.mp hnot
    obtain ⟨e, he⟩ := Option.ne_none_iff_exists'.mp hsome
    obtain ⟨e', he', hne⟩ := hlimits.leaves p hp ⟨e, he, fun heq => hkind (heq ▸ he)⟩
    exact hne (Option.some.inj (he'.symm.trans (hall.contains p _ hp)))
  · intro hm copied moved hcopied hmoved
    have hroot := root_of_copyMerge hcopied
    have hcopy := copyMerge_merged hm hcopied
    exact ⟨hcopy.unique (moveMerge_merged hm hmoved) hm hroot, hcopy.mergesAll hm hroot⟩

/-- A directory with nothing in it. -/
def emptyRoot : Tree Unit where
  entry p := if p = [] then some .directory else none
  closed name dir h := absurd (if_neg (List.cons_ne_nil name dir)) h

theorem emptyRoot_root : emptyRoot.entry [] = some .directory := rfl

/-- A directory with one leaf in it. -/
def oneEntry (name : String) (leaf : Entry Unit String) : Tree Unit :=
  emptyRoot.place name [] leaf emptyRoot_root

theorem oneEntry_cases {name : String} {leaf e : Entry Unit String} {p : Path}
    (h : (oneEntry name leaf).entry p = some e) :
    p = [] ∧ e = .directory ∨ p = [name] ∧ e = leaf := by
  by_cases hsame : p = [name]
  · rw [hsame] at h
    have hleaf : (oneEntry name leaf).entry [name] = some leaf := FileTree.place_entry_self
    exact Or.inr ⟨hsame, Option.some.inj (h.symm.trans hleaf)⟩
  · by_cases hsuffix : [name] <:+ p
    · have hnone : (oneEntry name leaf).entry p = none :=
        FileTree.place_entry_of_below hsuffix hsame
      rw [h] at hnone
      exact nomatch hnone
    · have hroot : (oneEntry name leaf).entry p = emptyRoot.entry p :=
        FileTree.place_entry_of_not_suffix hsuffix
      rw [h] at hroot
      by_cases hnil : p = []
      · rw [hnil, emptyRoot_root] at hroot
        exact Or.inl ⟨hnil, Option.some.inj hroot⟩
      · exact nomatch hroot.trans (if_neg hnil)

def oneEntryListing (name : String) (leaf : Entry Unit String) :
    Listing (oneEntry name leaf) where
  paths := [[name]]
  nodup := List.pairwise_singleton _ _
  mem_iff p := by
    rw [List.mem_singleton]
    constructor
    · rintro rfl
      have hleaf : (oneEntry name leaf).entry [name] = some leaf := FileTree.place_entry_self
      exact ⟨List.cons_ne_nil _ _, by rw [hleaf]; exact nofun⟩
    · rintro ⟨hne, hentry⟩
      obtain ⟨e, he⟩ := Option.ne_none_iff_exists'.mp hentry
      rcases oneEntry_cases he with ⟨hnil, -⟩ | ⟨hsame, -⟩
      · exact absurd hnil hne
      · exact hsame

/-- A link is left behind by one of the two. -/
theorem copy_merge_loses_link :
    ¬MergesAgree emptyRoot (oneEntry "l" (.link "t")) (oneEntryListing "l" (.link "t"))
      (oneEntryListing "l" (.link "t")) false := by
  intro h
  obtain ⟨hsame, -⟩ := h _ _ rfl rfl
  have hlink := congrArg (fun t => t.entry ["l"]) hsame
  exact nomatch hlink

theorem merges_agree_iff_sample :
    MergesAgree emptyRoot (oneEntry "f" (.file ())) (oneEntryListing "f" (.file ()))
      (oneEntryListing "f" (.file ())) false := by
  refine (merges_agree_iff _ _ _ _ false ⟨_, rfl⟩ ⟨_, rfl⟩).mpr
    ⟨fun p target hp => ?_, fun p hp => ?_⟩
  · rcases oneEntry_cases hp with ⟨-, he⟩ | ⟨-, he⟩
    · exact nomatch he
    · exact nomatch he
  · rcases oneEntry_cases hp with ⟨hnil, -⟩ | ⟨-, he⟩
    · rw [hnil]
      exact Or.inr emptyRoot_root
    · exact nomatch he

end Xhive.Modules
