import Mathlib.Data.List.Basic
import Mathlib.Order.Nat

/-!
# Lua patterns

The pattern language of the Lua string library: single-character classes with
greedy repetitions, captures and the two anchors.  A pattern is compiled to
items and matched by backtracking, in the order in which Lua tries.  A question
mark repeats a single character only; behind a capture it is a character.
-/

namespace Xhive.Support

/-! ## Compilation -/

inductive Repetition where
  | once
  | star
  | plus
  | optional

inductive PatternItem where
  | single (accepts : Char → Bool) (times : Repetition)
  | opens
  | closes
  | finish

structure LuaPattern where
  anchored : Bool
  items : List PatternItem

namespace LuaPattern

/-- `%d`, `%w`, and the escaped punctuation. -/
def classOf (c : Char) : Option (Char → Bool) :=
  if c = 'd' then some Char.isDigit
  else if c = 'w' then some Char.isAlphanum
  else if c.isAlphanum then none
  else some (· == c)

/-- The inside of a set up to its closing bracket. -/
def compileSet : List Char → Option ((Char → Bool) × List Char)
  | [] => none
  | ']' :: rest => some (fun _ => false, rest)
  | '%' :: c :: rest => do
      let first ← classOf c
      let (others, rest) ← compileSet rest
      some (fun x => first x || others x, rest)
  | low :: '-' :: high :: rest =>
      if high = ']' then do
        let (others, rest) ← compileSet ('-' :: high :: rest)
        some (fun x => x == low || others x, rest)
      else do
        let (others, rest) ← compileSet rest
        some (fun x => low.val ≤ x.val && x.val ≤ high.val || others x, rest)
  | c :: rest => do
      let (others, rest) ← compileSet rest
      some (fun x => x == c || others x, rest)

/-- One single-character class, and what follows it. -/
def compileClass (c : Char) (rest : List Char) : Option ((Char → Bool) × List Char) :=
  match c, rest with
  | '.', rest => some (fun _ => true, rest)
  | '%', d :: rest => (classOf d).map fun accepts => (accepts, rest)
  | '%', [] => none
  | '[', '^' :: rest => (compileSet rest).map fun set => (fun x => !set.1 x, set.2)
  | '[', rest => compileSet rest
  | c, rest => some ((· == c), rest)

def compileRepetition : List Char → Repetition × List Char
  | '*' :: rest => (.star, rest)
  | '+' :: rest => (.plus, rest)
  | '?' :: rest => (.optional, rest)
  | rest => (.once, rest)

/-- The items of a pattern of at most `fuel` characters. -/
def compileItems : ℕ → List Char → Option (List PatternItem)
  | 0, _ => some []
  | _ + 1, [] => some []
  | _ + 1, ['$'] => some [.finish]
  | fuel + 1, '(' :: rest => (compileItems fuel rest).map (.opens :: ·)
  | fuel + 1, ')' :: rest => (compileItems fuel rest).map (.closes :: ·)
  | fuel + 1, c :: rest => do
      let (accepts, rest) ← compileClass c rest
      let (times, rest) := compileRepetition rest
      let items ← compileItems fuel rest
      some (.single accepts times :: items)

def compile : List Char → Option LuaPattern
  | '^' :: rest => (compileItems rest.length rest).map (⟨true, ·⟩)
  | pattern => (compileItems pattern.length pattern).map (⟨false, ·⟩)

/-! ## Matching -/

/-- Captures, the latest first: the text where each was opened, and what it
holds once it is closed. -/
abbrev Captures := List (List Char × Option (List Char))

/-- What lies between two positions of a text. -/
def between (start rest : List Char) : List Char :=
  start.take (start.length - rest.length)

def closeCapture (rest : List Char) : Captures → Option Captures
  | [] => none
  | (start, none) :: captures => some ((start, some (between start rest)) :: captures)
  | capture :: captures => (closeCapture rest captures).map (capture :: ·)

/-- The longest repetition first. -/
def expand {α : Type} (accepts : Char → Bool) (next : List Char → Option α) :
    List Char → Option α
  | [] => next []
  | c :: rest =>
      if accepts c then (expand accepts next rest).orElse fun _ => next (c :: rest)
      else next (c :: rest)

/-- The rest of the text behind a match of the items, and the captures. -/
def matchItems : List PatternItem → Captures → List Char → Option (List Char × Captures)
  | [], captures, text => some (text, captures)
  | .finish :: items, captures, text =>
      if text = [] then matchItems items captures text else none
  | .opens :: items, captures, text => matchItems items ((text, none) :: captures) text
  | .closes :: items, captures, text =>
      (closeCapture text captures).bind fun captures => matchItems items captures text
  | .single accepts .once :: items, captures, text =>
      match text with
      | [] => none
      | c :: rest => if accepts c then matchItems items captures rest else none
  | .single accepts .optional :: items, captures, text =>
      match text with
      | [] => matchItems items captures []
      | c :: rest =>
          if accepts c then
            (matchItems items captures rest).orElse fun _ => matchItems items captures (c :: rest)
          else matchItems items captures (c :: rest)
  | .single accepts .star :: items, captures, text =>
      expand accepts (matchItems items captures) text
  | .single accepts .plus :: items, captures, text =>
      match text with
      | [] => none
      | c :: rest => if accepts c then expand accepts (matchItems items captures) rest else none

/-- The captures in their order, or the whole match where there are none. -/
def answer (start rest : List Char) (captures : Captures) : List (List Char) :=
  match captures with
  | [] => [between start rest]
  | _ => captures.reverse.map fun capture => capture.2.getD []

/-- A match at the first position that has one. -/
def search (items : List PatternItem) : List Char → Option (List (List Char))
  | [] => (matchItems items [] []).map fun found => answer [] found.1 found.2
  | c :: rest =>
      match matchItems items [] (c :: rest) with
      | some found => some (answer (c :: rest) found.1 found.2)
      | none => search items rest

/-- `string.match` -/
def luaMatch (pattern text : List Char) : Option (List (List Char)) :=
  (compile pattern).bind fun compiled =>
    if compiled.anchored then
      (matchItems compiled.items [] text).map fun found => answer text found.1 found.2
    else search compiled.items text

/-- What follows a match of the items, unless the match before ended there. -/
def nextMatch (items : List PatternItem) (last : Option ℕ) (text : List Char) :
    Option (List Char) :=
  ((matchItems items [] text).map Prod.fst).filter fun rest => last ≠ some rest.length

/-- The loop of `string.gmatch` for a pattern without captures. -/
def gmatchLoop (items : List PatternItem) : ℕ → Option ℕ → List Char → List (List Char)
  | 0, _, _ => []
  | fuel + 1, last, text =>
      match nextMatch items last text, text with
      | some rest, _ => between text rest :: gmatchLoop items fuel (some rest.length) rest
      | none, [] => []
      | none, _ :: rest => gmatchLoop items fuel last rest

/-- `string.gmatch`; every turn of the loop leaves a position or a match behind. -/
def luaGmatch (pattern text : List Char) : List (List Char) :=
  match compile pattern with
  | some compiled => gmatchLoop compiled.items (2 * text.length + 2) none text
  | none => []

/-- A replacement with `%0` to `%9` and `%%` filled in; Lua raises on any other
percent sign. -/
def fillReplacement (whole : List Char) (captures : List (List Char)) :
    List Char → Option (List Char)
  | [] => some []
  | ['%'] => none
  | '%' :: d :: rest =>
      if d = '%' then (fillReplacement whole captures rest).map ('%' :: ·)
      else if d = '0' then (fillReplacement whole captures rest).map (whole ++ ·)
      else if d.isDigit then do
        let capture ← captures[d.toNat - 49]?
        let rest ← fillReplacement whole captures rest
        some (capture ++ rest)
      else none
  | c :: rest => (fillReplacement whole captures rest).map (c :: ·)

/-- `string.gsub` of an anchored pattern, which replaces once at most. -/
def luaGsub (pattern replacement text : List Char) : Option (List Char) := do
  let compiled ← compile pattern
  match matchItems compiled.items [] text with
  | some found => do
      let filled ← fillReplacement (between text found.1) (answer text found.1 found.2) replacement
      some (filled ++ found.1)
  | none => some text

/-! ## Literals and final repetitions -/

/-- A class of one character, once. -/
def literal (c : Char) : PatternItem :=
  .single (· == c) .once

theorem matchItems_literals (word : List Char) (items : List PatternItem) (captures : Captures)
    (text : List Char) :
    matchItems (word.map literal ++ items) captures text =
      if word <+: text then matchItems items captures (text.drop word.length) else none := by
  induction word generalizing text with
  | nil => simp
  | cons c word ih =>
      cases text with
      | nil => simp [literal, matchItems]
      | cons d text =>
          rw [List.map_cons, List.cons_append, literal, matchItems]
          by_cases h : d = c
          · subst h
            simp only [beq_self_eq_true, if_true, ih, List.cons_prefix_cons, true_and,
              List.length_cons, List.drop_succ_cons]
          · have hne : ¬c = d := fun heq => h heq.symm
            simp [h, hne, List.cons_prefix_cons]

theorem expand_append {α : Type} {accepts : Char → Bool} {next : List Char → Option α}
    {word rest : List Char} {found : α} (hword : ∀ c ∈ word, accepts c = true)
    (hrest : ∀ c ∈ rest.head?, accepts c = false) (hnext : next rest = some found) :
    expand accepts next (word ++ rest) = some found := by
  induction word with
  | nil =>
      cases rest with
      | nil => exact hnext
      | cons c rest =>
          rw [List.nil_append, expand, hrest c rfl, if_neg Bool.false_ne_true, hnext]
  | cons c word ih =>
      rw [List.cons_append, expand, hword c List.mem_cons_self, if_pos rfl,
        ih fun d hd => hword d (List.mem_cons_of_mem _ hd)]
      rfl

/-- A repetition that may end anywhere takes all it can. -/
theorem expand_some {α : Type} (accepts : Char → Bool) (found : List Char → α)
    (text : List Char) :
    expand accepts (fun rest => some (found rest)) text =
      some (found (text.dropWhile accepts)) := by
  induction text with
  | nil => rfl
  | cons c rest ih =>
      rw [expand, List.dropWhile_cons]
      by_cases h : accepts c = true
      · rw [if_pos h, if_pos h, ih]
        rfl
      · rw [if_neg h, if_neg h]

/-- A repetition that can be followed somewhere is followed. -/
theorem expand_isSome {α : Type} {accepts : Char → Bool} {next : List Char → Option α}
    {word rest : List Char} (hword : ∀ c ∈ word, accepts c = true)
    (hnext : (next rest).isSome = true) : (expand accepts next (word ++ rest)).isSome = true := by
  induction word with
  | nil =>
      cases rest with
      | nil => exact hnext
      | cons c rest =>
          rw [List.nil_append, expand]
          split
          · cases expand accepts next rest with
            | none => exact hnext
            | some found => rfl
          · exact hnext
  | cons c word ih =>
      have hlater := ih fun d hd => hword d (List.mem_cons_of_mem _ hd)
      rw [List.cons_append, expand, hword c List.mem_cons_self, if_pos rfl]
      cases hfound : expand accepts next (word ++ rest) with
      | none =>
          rw [hfound] at hlater
          exact nomatch hlater
      | some found => rfl

/-- A character that stands for itself and repeats nothing. -/
def Plain (c : Char) : Prop :=
  c ∉ "$().%[*+?".toList

instance (c : Char) : Decidable (Plain c) :=
  inferInstanceAs (Decidable (_ ∉ _))

theorem compileClass_plain {c : Char} (hc : Plain c) (rest : List Char) :
    compileClass c rest = some ((· == c), rest) := by
  unfold compileClass
  split
  · exact absurd hc (by decide)
  · exact absurd hc (by decide)
  · exact absurd hc (by decide)
  · exact absurd hc (by decide)
  · exact absurd hc (by decide)
  · rfl

theorem compileRepetition_once {rest : List Char} (h : ∀ c ∈ rest.head?, Plain c ∨ c = '.') :
    compileRepetition rest = (.once, rest) := by
  unfold compileRepetition
  split
  · exact absurd (h _ rfl) (by decide)
  · exact absurd (h _ rfl) (by decide)
  · exact absurd (h _ rfl) (by decide)
  · rfl

/-- Plain characters compile to themselves. -/
theorem compileItems_plain {word rest : List Char} (hword : ∀ c ∈ word, Plain c)
    (hrest : ∀ c ∈ rest.head?, Plain c ∨ c = '.') (fuel : ℕ) :
    compileItems (word.length + fuel) (word ++ rest) =
      (compileItems fuel rest).map (word.map literal ++ ·) := by
  induction word with
  | nil => simp
  | cons c word ih =>
      have hc := hword c List.mem_cons_self
      have hlater : ∀ d ∈ word, Plain d := fun d hd => hword d (List.mem_cons_of_mem _ hd)
      have hnext : ∀ d ∈ (word ++ rest).head?, Plain d ∨ d = '.' := by
        intro d hd
        cases word with
        | nil => exact hrest d hd
        | cons e word =>
            obtain rfl := Option.some.inj hd
            exact Or.inl (hlater e List.mem_cons_self)
      have hstep : compileItems (word.length + fuel + 1) (c :: (word ++ rest)) =
          (compileItems (word.length + fuel) (word ++ rest)).map (literal c :: ·) := by
        have hdollar : c ≠ '$' := by
          rintro rfl
          exact absurd hc (by decide)
        have hopen : c ≠ '(' := by
          rintro rfl
          exact absurd hc (by decide)
        have hclose : c ≠ ')' := by
          rintro rfl
          exact absurd hc (by decide)
        rw [compileItems, compileClass_plain hc, Option.bind_eq_bind, Option.bind_some]
        · dsimp only
          rw [compileRepetition_once hnext]
          cases compileItems (word.length + fuel) (word ++ rest) <;> rfl
        · exact fun heq _ => hdollar heq
        · exact hopen
        · exact hclose
      rw [List.length_cons, Nat.add_right_comm, List.cons_append, hstep, ih hlater, Option.map_map]
      rfl

/-! ## Splitting a text -/

/-- The nonempty pieces of a text of accepted characters. -/
def pieces (accepts : Char → Bool) (text : List Char) : List (List Char) :=
  (text.splitOnP fun c => !accepts c).filter (· ≠ [])

theorem pieces_append_cons {accepts : Char → Bool} {c : Char} (hc : accepts c = false)
    (before rest : List Char) :
    pieces accepts (before ++ c :: rest) = pieces accepts before ++ pieces accepts rest := by
  rw [pieces, List.splitOnP_append_cons _ _ (by rw [hc]; rfl), List.filter_append]
  rfl

theorem pieces_word {accepts : Char → Bool} {word : List Char}
    (hword : ∀ c ∈ word, accepts c = true) (hne : word ≠ []) : pieces accepts word = [word] := by
  rw [pieces, List.splitOnP_eq_singleton fun c hc => by rw [hword c hc]; rfl]
  simp [hne]

theorem pieces_nil (accepts : Char → Bool) : pieces accepts [] = [] := rfl

theorem between_append (word rest : List Char) : between (word ++ rest) rest = word := by
  rw [between, List.length_append, Nat.add_sub_cancel, List.take_left]

/-- A text is the accepted characters it starts with and the rest. -/
theorem exists_word (accepts : Char → Bool) (text : List Char) :
    ∃ word, text = word ++ text.dropWhile accepts ∧ (∀ c ∈ word, accepts c = true) ∧
      ∀ c ∈ (text.dropWhile accepts).head?, accepts c = false := by
  induction text with
  | nil => exact ⟨[], rfl, fun _ h => absurd h List.not_mem_nil, fun _ h => nomatch h⟩
  | cons c rest ih =>
      rw [List.dropWhile_cons]
      by_cases hc : accepts c = true
      · obtain ⟨word, heq, hword, hrest⟩ := ih
        rw [if_pos hc]
        refine ⟨c :: word, congrArg (c :: ·) heq, fun d hd => ?_, hrest⟩
        rcases List.mem_cons.mp hd with rfl | hd
        · exact hc
        · exact hword d hd
      · rw [if_neg hc]
        refine ⟨[], rfl, fun _ h => absurd h List.not_mem_nil, fun d hd => ?_⟩
        obtain rfl := Option.some.inj hd
        exact Bool.not_eq_true _ ▸ hc

/-- `gmatch` of a class repeated splits the text at the other characters. -/
theorem gmatchLoop_pieces (accepts : Char → Bool) {fuel : ℕ} {last : Option ℕ}
    {text : List Char} (hfuel : text.length < fuel) (hlast : ∀ n ∈ last, text.length ≤ n) :
    gmatchLoop [.single accepts .plus] fuel last text = pieces accepts text := by
  induction fuel generalizing last text with
  | zero => exact absurd hfuel (Nat.not_lt_zero _)
  | succ fuel ih =>
      cases text with
      | nil => rfl
      | cons c rest =>
          rw [List.length_cons] at hfuel
          by_cases hc : accepts c = true
          · have hmatch : matchItems [.single accepts .plus] [] (c :: rest) =
                some (rest.dropWhile accepts, []) := by
              rw [matchItems, if_pos hc]
              exact expand_some accepts (fun rest => (rest, [])) rest
            obtain ⟨word, heq, hword, htail⟩ := exists_word accepts rest
            generalize rest.dropWhile accepts = tail at hmatch heq htail
            subst heq
            have hlength : (word ++ tail).length = word.length + tail.length := List.length_append
            have hnew : last ≠ some tail.length := by
              intro hsome
              have hle := hlast _ hsome
              rw [List.length_cons] at hle
              omega
            have hword' : ∀ d ∈ c :: word, accepts d = true := by
              intro d hd
              rcases List.mem_cons.mp hd with rfl | hd
              · exact hc
              · exact hword d hd
            have hlater : gmatchLoop [.single accepts .plus] fuel (some tail.length) tail =
                pieces accepts tail :=
              ih (by omega) fun n hn => le_of_eq (Option.some.inj hn)
            have hnext : nextMatch [.single accepts .plus] last (c :: (word ++ tail)) =
                some tail := by
              rw [nextMatch, hmatch]
              exact Option.filter_some.trans (if_pos (decide_eq_true hnew))
            simp only [gmatchLoop, hnext]
            rw [hlater, ← List.cons_append, between_append]
            cases tail with
            | nil =>
                rw [List.append_nil, pieces_word hword' (List.cons_ne_nil _ _)]
                rfl
            | cons d tail =>
                have hd : accepts d = false := htail d rfl
                have hnil : pieces accepts (d :: tail) = pieces accepts tail :=
                  pieces_append_cons hd [] tail
                rw [pieces_append_cons hd, pieces_word hword' (List.cons_ne_nil _ _), hnil]
                rfl
          · have hc' : accepts c = false := Bool.not_eq_true _ ▸ hc
            have hmatch : matchItems [.single accepts .plus] [] (c :: rest) = none := by
              rw [matchItems, if_neg hc]
            have hskip : gmatchLoop [.single accepts .plus] fuel last rest =
                pieces accepts rest := by
              refine ih (by omega) fun n hn => ?_
              have hle := hlast n hn
              rw [List.length_cons] at hle
              omega
            have hnext : nextMatch [.single accepts .plus] last (c :: rest) = none := by
              rw [nextMatch, hmatch]
              rfl
            simp only [gmatchLoop, hnext]
            rw [hskip]
            exact (pieces_append_cons hc' [] rest).symm

end LuaPattern

end Xhive.Support
