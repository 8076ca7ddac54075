import Mathlib.Data.List.Induction
import Xhive.Support.LuaPatterns
import Xhive.Support.Words

/-!
# The `.config` reader and writer

`parse` and `set_config` of the kconfig module over the contents of the file.
`parse` reads the lines in order and lets a later line win; `set_config`
replaces what its pattern matches, or appends a line.
-/

namespace Xhive.Modules

open Xhive.Support LuaPattern

/-! ## Reading -/

/-- A Lua value of the table: an integer that does not fit 64 bits is read as a
float. -/
inductive KValue where
  | bool (value : Bool)
  | string (value : List Char)
  | integer (value : Int64)
  | float (numeral : List Char)

/-- The table, from keys to the values they have. -/
abbrev KConfig := List Char → Option KValue

def hexDigit (c : Char) : ℕ :=
  if c.isDigit then c.toNat - 48
  else if 97 ≤ c.toNat then c.toNat - 87
  else c.toNat - 55

/-- `tonumber` of `0x` and hexadecimal digits wraps around. -/
def tonumberHex (value : List Char) : KValue :=
  .integer (Int64.ofNat ((value.drop 2).foldl (fun n c => 16 * n + hexDigit c) 0))

/-- `tonumber` of an optional sign and decimal digits. -/
def tonumberDecimal (value : List Char) : KValue :=
  let number : ℤ := match value with
    | '-' :: digits => -(Nat.ofDigitChars 10 digits 0 : ℤ)
    | '+' :: digits => Nat.ofDigitChars 10 digits 0
    | digits => Nat.ofDigitChars 10 digits 0
  if FitsInt64 number then .integer (Int64.ofInt number) else .float value

def parseValue (value : List Char) : KValue :=
  if value = ['y'] then .bool true
  else if value = ['n'] then .bool false
  else if value = ['m'] then .string "module".toList
  else if (luaMatch "^\".*\"$".toList value).isSome then .string value.tail.dropLast
  else if (luaMatch "^0x[0-9a-fA-F]+$".toList value).isSome then tonumberHex value
  else if (luaMatch "^[+-]?%d+$".toList value).isSome then tonumberDecimal value
  else .string value

/-- The effect of one line on the table. -/
def parseLine (kconfig : KConfig) (line : List Char) : KConfig :=
  if (luaMatch "^#".toList line).isSome then kconfig
  else match luaMatch "^CONFIG_([%w_]+)=(.+)$".toList line with
    | some [key, value] => Function.update kconfig key (some (parseValue value))
    | _ => kconfig

def parse (fileContent : List Char) : KConfig :=
  (luaGmatch "[^\n]+".toList fileContent).foldl parseLine fun _ => none

/-! ## Writing -/

/-- The values a caller sets. -/
inductive ConfigValue where
  | bool (value : Bool)
  | string (value : List Char)
  | integer (value : Int64)

/-- An integer as `..` writes it. -/
def integerText (value : Int64) : List Char :=
  if value.toInt < 0 then '-' :: Nat.toDigits 10 value.toInt.natAbs
  else Nat.toDigits 10 value.toInt.natAbs

def configLine (key : List Char) : ConfigValue → List Char
  | .bool true => "CONFIG_".toList ++ key ++ "=y".toList
  | .bool false => "# CONFIG_".toList ++ key ++ " is not set".toList
  | .string value =>
      if "0x".toList <+: value then "CONFIG_".toList ++ key ++ '=' :: value
      else "CONFIG_".toList ++ key ++ "=\"".toList ++ value ++ ['"']
  | .integer value => "CONFIG_".toList ++ key ++ '=' :: integerText value

/-- `none` is an error raised by `gsub`. -/
def setConfig (fileContent key : List Char) (value : ConfigValue) : Option (List Char) :=
  let pattern := "^(# )?CONFIG_".toList ++ key ++ "=.*$".toList
  let replacement := configLine key value
  match luaMatch pattern fileContent with
  | some _ => luaGsub pattern replacement fileContent
  | none => some (fileContent ++ '\n' :: replacement ++ ['\n'])

/-- A sequence of `set_config` calls on one file. -/
def setConfigs (fileContent : List Char) (calls : List (List Char × ConfigValue)) :
    Option (List Char) :=
  calls.foldlM (fun fileContent call => setConfig fileContent call.1 call.2) fileContent

end Xhive.Modules

/-!
## What `parse` reads back after `set_config`

The pattern of `set_config` is anchored at the start of the whole text, and its
question mark is a character, so practically every call appends a line.  A line
that sets a value wins over the lines before it; the line of an unset key is a
comment and wins over nothing.
-/

namespace Xhive.Modules

open Xhive.Support LuaPattern

/-- `[%w_]` -/
def isWord (c : Char) : Bool :=
  c.isAlphanum || (c == '_' || false)

variable {key value text : List Char}

theorem plain_of_isWord {c : Char} (hc : isWord c = true) : Plain c := by
  intro hmem
  have hnot : "$().%[*+?".toList.all (fun d => !isWord d) = true := by decide
  have hc' := List.all_eq_true.mp hnot c hmem
  rw [hc] at hc'
  cases hc'

/-! ## Lines -/

/-- The lines of a file, without the empty ones. -/
theorem luaGmatch_lines (text : List Char) :
    luaGmatch "[^\n]+".toList text = pieces (fun c => !(c == '\n' || false)) text :=
  gmatchLoop_pieces _ (by omega) fun _ h => by cases h

/-- A line appended to a file is read after the others. -/
theorem parse_append {line : List Char} (hline : '\n' ∉ line) (hne : line ≠ []) :
    parse (text ++ '\n' :: line ++ ['\n']) = parseLine (parse text) line := by
  have hnewline : (!(('\n' : Char) == '\n' || false)) = false := rfl
  have hword : ∀ c ∈ line, (!(c == '\n' || false)) = true := by
    intro c hc
    have hother : c ≠ '\n' := fun heq => hline (heq ▸ hc)
    simp [hother]
  rw [parse, luaGmatch_lines, List.append_assoc, List.cons_append,
    pieces_append_cons hnewline, pieces_append_cons hnewline, pieces_word hword hne, pieces_nil,
    List.append_nil, List.foldl_append, ← luaGmatch_lines]
  rfl

/-- The items of `^CONFIG_([%w_]+)=(.+)$`. -/
theorem compile_assignment : compile "^CONFIG_([%w_]+)=(.+)$".toList =
    some ⟨true, "CONFIG_".toList.map literal ++ [.opens, .single isWord .plus, .closes,
      literal '=', .opens, .single (fun _ => true) .plus, .closes, .finish]⟩ := rfl

theorem luaMatch_assignment (hkey : ∀ c ∈ key, isWord c = true) (hne : key ≠ [])
    (hvalue : value ≠ []) :
    luaMatch "^CONFIG_([%w_]+)=(.+)$".toList ("CONFIG_".toList ++ key ++ '=' :: value) =
      some [key, value] := by
  obtain ⟨k, ks, rfl⟩ := List.exists_cons_of_ne_nil hne
  obtain ⟨v, vs, rfl⟩ := List.exists_cons_of_ne_nil hvalue
  have hend : matchItems [.closes, .finish] [(v :: vs, none), (k :: (ks ++ '=' :: v :: vs),
      some (k :: ks))] [] = some ([], [(v :: vs, some (v :: vs)), (k :: (ks ++ '=' :: v :: vs),
      some (k :: ks))]) := by
    have hall : between (v :: vs) [] = v :: vs := by
      have := between_append (v :: vs) []
      rwa [List.append_nil] at this
    rw [matchItems, closeCapture, hall]
    rfl
  have hright : matchItems [.closes, literal '=', .opens, .single (fun _ => true) .plus, .closes,
      .finish] [(k :: (ks ++ '=' :: v :: vs), none)] ('=' :: v :: vs) =
      some ([], [(v :: vs, some (v :: vs)), (k :: (ks ++ '=' :: v :: vs),
      some (k :: ks))]) := by
    have hkeyText : between (k :: (ks ++ '=' :: v :: vs)) ('=' :: v :: vs) = k :: ks :=
      between_append (k :: ks) _
    rw [matchItems, closeCapture, hkeyText, Option.bind_some, literal, matchItems,
      if_pos (by rfl), matchItems, matchItems, if_pos rfl]
    have hall := @expand_append _ (fun _ => true) (matchItems [.closes, .finish]
      [(v :: vs, none), (k :: (ks ++ '=' :: v :: vs), some (k :: ks))]) vs [] _
      (fun _ _ => rfl) (fun _ h => by cases h) hend
    rwa [List.append_nil] at hall
  rw [luaMatch, compile_assignment, Option.bind_some, if_pos rfl, List.append_assoc,
    matchItems_literals, if_pos (List.prefix_append _ _), List.drop_left, matchItems,
    List.cons_append, matchItems, if_pos (hkey k List.mem_cons_self),
    expand_append (fun c hc => hkey c (List.mem_cons_of_mem _ hc))
      (fun c hc => by obtain rfl := Option.some.inj hc; rfl) hright]
  rfl

/-- A line that assigns sets its key. -/
theorem parseLine_assignment (hkey : ∀ c ∈ key, isWord c = true) (hne : key ≠ [])
    (hvalue : value ≠ []) (kconfig : KConfig) :
    parseLine kconfig ("CONFIG_".toList ++ key ++ '=' :: value) =
      Function.update kconfig key (some (parseValue value)) := by
  have hcomment : luaMatch "^#".toList ("CONFIG_".toList ++ key ++ '=' :: value) = none := rfl
  rw [parseLine, hcomment, luaMatch_assignment hkey hne hvalue]
  rfl

/-- A line that begins with `#` sets nothing. -/
theorem parseLine_comment (kconfig : KConfig) (line : List Char) :
    parseLine kconfig ('#' :: line) = kconfig :=
  if_pos rfl

/-! ## Values -/

theorem parseValue_quoted (value : List Char) :
    parseValue ('"' :: (value ++ ['"'])) = .string value := by
  have hquoted : (luaMatch "^\".*\"$".toList ('"' :: (value ++ ['"']))).isSome = true := by
    have hcompile : compile "^\".*\"$".toList = some ⟨true, [literal '"',
        .single (fun _ => true) .star, literal '"', .finish]⟩ := rfl
    have hrest := @expand_isSome _ (fun _ => true) (matchItems [literal '"', .finish] []) value
      ['"'] (fun _ _ => rfl) rfl
    rw [luaMatch, hcompile, Option.bind_some, if_pos rfl, Option.isSome_map, literal, matchItems,
      if_pos (by rfl), matchItems]
    exact hrest
  rw [parseValue, if_neg (by simp), if_neg (by simp), if_neg (by simp), if_pos hquoted,
    List.tail_cons, List.dropLast_concat]

theorem digits_cons (n : ℕ) :
    ∃ d ds, Nat.toDigits 10 n = d :: ds ∧ d.isDigit = true ∧ ∀ c ∈ ds, c.isDigit = true := by
  obtain ⟨d, ds, heq⟩ := List.exists_cons_of_ne_nil (Nat.toDigits_ne_nil (n := n) (b := 10))
  have hdigit : ∀ c ∈ Nat.toDigits 10 n, c.isDigit = true := fun _ hc =>
    Nat.isDigit_of_mem_toDigits (by decide) (by decide) hc
  rw [heq] at hdigit
  exact ⟨d, ds, heq, hdigit d List.mem_cons_self, fun c hc => hdigit c (List.mem_cons_of_mem _ hc)⟩

/-- A digit is none of the other characters that the patterns mention. -/
theorem ne_of_isDigit {c d : Char} (hc : c.isDigit = true) (hd : d.isDigit = false) : c ≠ d := by
  rintro rfl
  rw [hc] at hd
  cases hd

theorem compile_decimal : compile "^[+-]?%d+$".toList =
    some ⟨true, [.single (fun x => x == '+' || (x == '-' || false)) .optional,
      .single Char.isDigit .plus, .finish]⟩ := rfl

theorem matchItems_digits {d : Char} {ds : List Char} (hd : d.isDigit = true)
    (hds : ∀ c ∈ ds, c.isDigit = true) :
    (matchItems [.single Char.isDigit .plus, .finish] [] (d :: ds)).isSome = true := by
  have hrest := @expand_isSome _ Char.isDigit (matchItems [.finish] []) ds [] hds rfl
  rw [List.append_nil] at hrest
  rw [matchItems, if_pos hd]
  exact hrest

/-- A numeral is no keyword, not quoted and not hexadecimal. -/
theorem parseValue_numeral {c : Char} {rest : List Char} (hhead : c = '-' ∨ c.isDigit = true)
    (hrest : ∀ d ∈ rest, d.isDigit = true)
    (hdecimal : (luaMatch "^[+-]?%d+$".toList (c :: rest)).isSome = true) :
    parseValue (c :: rest) = tonumberDecimal (c :: rest) := by
  have hother : ∀ d : Char, d ≠ '-' → d.isDigit = false → c ≠ d := by
    rintro d hminus hd rfl
    rcases hhead with rfl | hc
    · exact hminus rfl
    · exact ne_of_isDigit hc hd rfl
  have hkeyword : ∀ d : Char, d ≠ '-' → d.isDigit = false → c :: rest ≠ [d] :=
    fun d hminus hd heq => hother d hminus hd (List.cons.inj heq).1
  have hquoted : luaMatch "^\".*\"$".toList (c :: rest) = none := by
    have hcompile : compile "^\".*\"$".toList = some ⟨true, [literal '"',
        .single (fun _ => true) .star, literal '"', .finish]⟩ := rfl
    have hne : (c == '"') = false := beq_eq_false_iff_ne.mpr (hother '"' (by decide) rfl)
    rw [luaMatch, hcompile, Option.bind_some, if_pos rfl, literal, matchItems,
      if_neg (by rw [hne]; exact Bool.false_ne_true)]
    rfl
  have hhex : luaMatch "^0x[0-9a-fA-F]+$".toList (c :: rest) = none := by
    obtain ⟨set, hcompile⟩ : ∃ set, compile "^0x[0-9a-fA-F]+$".toList =
        some ⟨true, "0x".toList.map literal ++ [.single set .plus, .finish]⟩ := ⟨_, rfl⟩
    have hstart : ¬ "0x".toList <+: c :: rest := by
      intro h
      obtain ⟨-, h⟩ := List.cons_prefix_cons.mp h
      cases rest with
      | nil => exact absurd h (by decide)
      | cons d rest =>
          obtain ⟨rfl, -⟩ := List.cons_prefix_cons.mp h
          exact absurd (hrest 'x' List.mem_cons_self) (by decide)
    rw [luaMatch, hcompile, Option.bind_some, if_pos rfl, matchItems_literals, if_neg hstart]
    rfl
  rw [parseValue, if_neg (hkeyword 'y' (by decide) rfl), if_neg (hkeyword 'n' (by decide) rfl),
    if_neg (hkeyword 'm' (by decide) rfl), hquoted, if_neg (by decide), hhex, if_neg (by decide),
    if_pos hdecimal]

/-- An integer written in decimal is read as the same integer. -/
theorem parseValue_integerText (value : Int64) :
    parseValue (integerText value) = .integer value := by
  have hfits : FitsInt64 value.toInt := fitsInt64_toInt value
  obtain ⟨d, ds, hdigits, hd, hds⟩ := digits_cons value.toInt.natAbs
  have hnumber : Nat.ofDigitChars 10 (d :: ds) 0 = value.toInt.natAbs := by
    rw [← hdigits, Nat.ofDigitChars_ten_toDigits]
  by_cases hneg : value.toInt < 0
  · have hvalue : -(value.toInt.natAbs : ℤ) = value.toInt := by omega
    have hdecimal : (luaMatch "^[+-]?%d+$".toList ('-' :: d :: ds)).isSome = true := by
      obtain ⟨found, hfound⟩ := Option.isSome_iff_exists.mp (matchItems_digits hd hds)
      rw [luaMatch, compile_decimal, Option.bind_some, if_pos rfl, matchItems, if_pos (by rfl),
        hfound]
      rfl
    have hall : ∀ c ∈ d :: ds, c.isDigit = true := List.forall_mem_cons.mpr ⟨hd, hds⟩
    have hread : tonumberDecimal ('-' :: d :: ds) = .integer value := by
      unfold tonumberDecimal
      split
      · rename_i heq
        rw [← (List.cons.inj heq).2, hnumber, hvalue, if_pos hfits, Int64.ofInt_toInt]
      · rename_i heq
        exact absurd (List.cons.inj heq).1 (by decide)
      · rename_i hother _
        exact absurd rfl (hother (d :: ds))
    rw [integerText, if_pos hneg, hdigits, parseValue_numeral (Or.inl rfl) hall hdecimal, hread]
  · have hvalue : (value.toInt.natAbs : ℤ) = value.toInt := by omega
    have hsign : (d == '+' || (d == '-' || false)) = false := by
      rw [beq_eq_false_iff_ne.mpr (ne_of_isDigit hd (rfl : '+'.isDigit = false)),
        beq_eq_false_iff_ne.mpr (ne_of_isDigit hd (rfl : '-'.isDigit = false))]
      rfl
    have hdecimal : (luaMatch "^[+-]?%d+$".toList (d :: ds)).isSome = true := by
      rw [luaMatch, compile_decimal, Option.bind_some, if_pos rfl, matchItems, hsign,
        if_neg Bool.false_ne_true, Option.isSome_map]
      exact matchItems_digits hd hds
    have hread : tonumberDecimal (d :: ds) = .integer value := by
      unfold tonumberDecimal
      split
      · rename_i heq
        exact absurd (List.cons.inj heq).1 (ne_of_isDigit hd rfl)
      · rename_i heq
        exact absurd (List.cons.inj heq).1 (ne_of_isDigit hd rfl)
      · rw [hnumber, hvalue, if_pos hfits, Int64.ofInt_toInt]
    rw [integerText, if_neg hneg, hdigits, parseValue_numeral (Or.inr hd) hds hdecimal, hread]

/-! ## Calls -/

def ValidKey (key : List Char) : Prop :=
  ∀ c ∈ key, isWord c = true

def ValidValue : ConfigValue → Prop
  | .string value => '\n' ∉ value ∧ '"' ∉ value ∧ '\\' ∉ value ∧ ¬"0x".toList <+: value
  | _ => True

/-- The Lua value that a caller sets. -/
def ConfigValue.meaning : ConfigValue → KValue
  | .bool value => .bool value
  | .string value => .string value
  | .integer value => .integer value

/-- A key set to `false` may be absent. -/
def Reads (value : ConfigValue) (got : Option KValue) : Prop :=
  got = some value.meaning ∨ value = .bool false ∧ got = none

/-- The value of the last call for a key. -/
def lastSet (calls : List (List Char × ConfigValue)) (key : List Char) : Option ConfigValue :=
  (calls.reverse.find? fun call => call.1 == key).map Prod.snd

/-- A file reads back the calls made since it had the text. -/
def ReadsBack (text : List Char) (calls : List (List Char × ConfigValue))
    (result : List Char) : Prop :=
  ∀ key, match lastSet calls key with
    | some value => Reads value (parse result key)
    | none => parse result key = parse text key

/-- A call that `set_config` serves on a file: the key is not empty where a value is
set, its pattern does not match the file, and a key that is unset is not set there. -/
def Serves (text : List Char) (call : List Char × ConfigValue) : Prop :=
  (call.2 ≠ .bool false → call.1 ≠ []) ∧
    ¬"# ?CONFIG_".toList ++ call.1 ++ ['='] <+: text ∧
    (call.2 = .bool false → parse text call.1 = none ∨ parse text call.1 = some (.bool false))

/-- Every call meets a file on which it is served. -/
def ServesAlong (text : List Char) (calls : List (List Char × ConfigValue)) : Prop :=
  ∀ before call after, calls = before ++ call :: after →
    ∀ reached, setConfigs text before = some reached → Serves reached call

/-! ## One call -/

/-- The pattern of a call: the question mark behind the group stands for itself. -/
theorem compile_setConfig (hkey : ValidKey key) :
    compile ("^(# )?CONFIG_".toList ++ key ++ "=.*$".toList) =
      some ⟨true, .opens :: ("# ".toList.map literal ++ .closes ::
        (("?CONFIG_".toList ++ key ++ ['=']).map literal ++
          [.single (fun _ => true) .star, .finish]))⟩ := by
  have hconfig : "CONFIG_".toList.all isWord = true := by decide
  have hword : ∀ c ∈ "CONFIG_".toList ++ key ++ ['='], Plain c := by
    intro c hc
    rcases List.mem_append.mp hc with hc | hc
    · exact plain_of_isWord
        ((List.mem_append.mp hc).elim (List.all_eq_true.mp hconfig c) (hkey c))
    · obtain rfl := List.mem_singleton.mp hc
      decide
  have hrest : ∀ c ∈ ".*$".toList.head?, Plain c ∨ c = '.' :=
    fun c hc => Or.inr (Option.some.inj hc).symm
  have hplain := compileItems_plain hword hrest 3
  have hgroup : ∀ fuel tail, compileItems (fuel + 6) ("(# )?C".toList ++ tail) =
      (((((compileItems (fuel + 1) ('C' :: tail)).bind fun items =>
        some (literal '?' :: items)).map (.closes :: ·)).bind fun items =>
        some (literal ' ' :: items)).bind fun items =>
        some (literal '#' :: items)).map (.opens :: ·) := fun _ _ => rfl
  have hsplit : ∀ head : List Char,
      head ++ key ++ "=.*$".toList = head ++ key ++ ['='] ++ ".*$".toList := by
    intro head
    rw [List.append_assoc (head ++ key) ['=']]
    rfl
  have hlength : ("(# )?C".toList ++ ("ONFIG_".toList ++ key ++ "=.*$".toList)).length =
      (("ONFIG_".toList ++ key ++ ['=']).length + 3) + 6 := by
    simp only [hsplit, List.length_append]
    exact Nat.add_comm 6 _
  have hitems : compileItems (("ONFIG_".toList ++ key ++ ['=']).length + 3 + 1)
      ('C' :: ("ONFIG_".toList ++ key ++ "=.*$".toList)) = some
      (("CONFIG_".toList ++ key ++ ['=']).map literal ++
        [.single (fun _ => true) .star, .finish]) := by
    rw [hsplit]
    exact hplain
  show (compileItems ("(# )?C".toList ++ ("ONFIG_".toList ++ key ++ "=.*$".toList)).length
    ("(# )?C".toList ++ ("ONFIG_".toList ++ key ++ "=.*$".toList))).map _ = _
  rw [hlength, hgroup, hitems]
  rfl

/-- A file that does not begin with the text of the pattern is not matched. -/
theorem luaMatch_setConfig (hkey : ValidKey key)
    (hstart : ¬"# ?CONFIG_".toList ++ key ++ ['='] <+: text) :
    luaMatch ("^(# )?CONFIG_".toList ++ key ++ "=.*$".toList) text = none := by
  have hitems : ¬("# ".toList <+: text ∧
      "?CONFIG_".toList ++ key ++ ['='] <+: text.drop "# ".toList.length) := by
    rintro ⟨⟨rest, rfl⟩, hrest⟩
    rw [List.drop_left] at hrest
    exact hstart ((List.prefix_append_right_inj "# ".toList).mpr hrest)
  rw [luaMatch, compile_setConfig hkey, Option.bind_some, if_pos rfl, matchItems,
    matchItems_literals]
  by_cases hhash : "# ".toList <+: text
  · rw [if_pos hhash, matchItems, closeCapture, Option.bind_some, matchItems_literals,
      if_neg fun hrest => hitems ⟨hhash, hrest⟩]
    rfl
  · rw [if_neg hhash]
    rfl

theorem not_mem_newline_of_isWord (hkey : ValidKey key) : '\n' ∉ key := fun hmem =>
  absurd (hkey '\n' hmem) (by decide)

theorem not_mem_newline_integerText (value : Int64) : '\n' ∉ integerText value := by
  have hdigits : '\n' ∉ Nat.toDigits 10 value.toInt.natAbs := fun hmem =>
    absurd (Nat.isDigit_of_mem_toDigits (by decide) (by decide) hmem) (by decide)
  rw [integerText]
  split
  · exact List.not_mem_cons_of_ne_of_not_mem (by decide) hdigits
  · exact hdigits

theorem integerText_ne_nil (value : Int64) : integerText value ≠ [] := by
  rw [integerText]
  split
  · exact List.cons_ne_nil _ _
  · exact Nat.toDigits_ne_nil

/-- What is written behind the equals sign of a line that sets a value. -/
def assigned : ConfigValue → List Char
  | .bool true => ['y']
  | .bool false => []
  | .string value => '"' :: (value ++ ['"'])
  | .integer value => integerText value

theorem configLine_assigned {setting : ConfigValue} (hvalid : ValidValue setting)
    (hset : setting ≠ .bool false) :
    configLine key setting = "CONFIG_".toList ++ key ++ '=' :: assigned setting := by
  cases setting with
  | bool value =>
      cases value with
      | false => exact absurd rfl hset
      | true =>
          show "CONFIG_".toList ++ key ++ "=y".toList = "CONFIG_".toList ++ key ++ ['=', 'y']
          rfl
  | string value =>
      have hline : configLine key (.string value) =
          "CONFIG_".toList ++ key ++ "=\"".toList ++ value ++ ['"'] := if_neg hvalid.2.2.2
      rw [hline, List.append_assoc, List.append_assoc]
      rfl
  | integer value => rfl

theorem assigned_spec {setting : ConfigValue} (hvalid : ValidValue setting)
    (hset : setting ≠ .bool false) :
    '\n' ∉ assigned setting ∧ assigned setting ≠ [] ∧
      parseValue (assigned setting) = setting.meaning := by
  cases setting with
  | bool value =>
      cases value with
      | false => exact absurd rfl hset
      | true => exact ⟨by decide, by decide, if_pos rfl⟩
  | string value =>
      refine ⟨fun hmem => ?_, List.cons_ne_nil _ _, parseValue_quoted value⟩
      rcases List.mem_cons.mp hmem with heq | hmem
      · exact absurd heq (by decide)
      · rcases List.mem_append.mp hmem with hmem | hmem
        · exact hvalid.1 hmem
        · exact absurd hmem (by decide)
  | integer value =>
      exact ⟨not_mem_newline_integerText value, integerText_ne_nil value,
        parseValue_integerText value⟩

/-- A call that is served appends its line, and its line is read last. -/
theorem setConfig_served {setting : ConfigValue} (hkey : ValidKey key)
    (hvalid : ValidValue setting) (hserves : Serves text (key, setting)) :
    ∃ result, setConfig text key setting = some result ∧ Reads setting (parse result key) ∧
      ∀ other, other ≠ key → parse result other = parse text other := by
  obtain ⟨hne, hstart, hunset⟩ := hserves
  have hmatch := luaMatch_setConfig hkey hstart
  refine ⟨text ++ '\n' :: configLine key setting ++ ['\n'], ?_, ?_⟩
  · unfold setConfig
    simp only
    rw [hmatch]
  have hnewline := not_mem_newline_of_isWord hkey
  by_cases hset : setting = .bool false
  · subst hset
    have hline : configLine key (.bool false) = '#' :: (" CONFIG_".toList ++ key ++
        " is not set".toList) := rfl
    have hfree : '\n' ∉ configLine key (.bool false) := by
      rw [hline]
      simp only [List.mem_cons, List.mem_append, hnewline]
      decide
    rw [parse_append hfree (by rw [hline]; exact List.cons_ne_nil _ _), hline, parseLine_comment]
    exact ⟨(hunset rfl).elim (fun hnone => Or.inr ⟨rfl, hnone⟩) Or.inl, fun _ _ => rfl⟩
  · obtain ⟨hfree, hsome, hread⟩ := assigned_spec hvalid hset
    have hline := @configLine_assigned key setting hvalid hset
    have hfreeLine : '\n' ∉ configLine key setting := by
      rw [hline]
      simp only [List.mem_cons, List.mem_append, hnewline, hfree]
      decide
    rw [parse_append hfreeLine (by rw [hline]; exact fun h => nomatch h), hline,
      parseLine_assignment hkey (hne hset) hsome, hread]
    exact ⟨Or.inl (Function.update_self ..), fun other hother =>
      Function.update_of_ne hother ..⟩

/-! ## Runs -/

theorem lastSet_append (calls : List (List Char × ConfigValue)) (call : List Char × ConfigValue)
    (key : List Char) :
    lastSet (calls ++ [call]) key = if call.1 = key then some call.2 else lastSet calls key := by
  rw [lastSet, List.reverse_concat, List.find?_cons]
  by_cases h : call.1 = key
  · rw [if_pos h, beq_iff_eq.mpr h]
    rfl
  · rw [if_neg h, beq_eq_false_iff_ne.mpr h]
    rfl

theorem setConfigs_append (text : List Char) (calls : List (List Char × ConfigValue))
    (call : List Char × ConfigValue) :
    setConfigs text (calls ++ [call]) =
      (setConfigs text calls).bind fun reached => setConfig reached call.1 call.2 := by
  rw [setConfigs, List.foldlM_append]
  cases hreached : setConfigs text calls with
  | none =>
      rw [setConfigs] at hreached
      rw [hreached]
      rfl
  | some reached =>
      rw [setConfigs] at hreached
      rw [hreached]
      show (setConfig reached call.1 call.2 >>= pure) = setConfig reached call.1 call.2
      exact bind_pure _

/-- In a run whose calls are all served, the file reads back what was set and
nothing else, after every call. -/
theorem set_config_reads_back (text : List Char) (calls : List (List Char × ConfigValue))
    (hvalid : ∀ call ∈ calls, ValidKey call.1 ∧ ValidValue call.2)
    (hserves : ServesAlong text calls) (done : List (List Char × ConfigValue))
    (hdone : done <+: calls) :
    ∃ result, setConfigs text done = some result ∧ ReadsBack text done result := by
  induction done using List.reverseRecOn with
  | nil => exact ⟨text, rfl, fun _ => rfl⟩
  | append_singleton earlier call ih =>
      obtain ⟨after, hcalls⟩ := hdone
      rw [List.append_assoc] at hcalls
      obtain ⟨reached, hreached, hreads⟩ := ih ⟨_, hcalls⟩
      obtain ⟨hkey, hvalue⟩ := hvalid call (hcalls ▸ List.mem_append_right _ List.mem_cons_self)
      obtain ⟨result, hresult, hset, hothers⟩ := setConfig_served hkey hvalue
        (hserves earlier call after hcalls.symm reached hreached)
      refine ⟨result, by rw [setConfigs_append, hreached]; exact hresult, fun key => ?_⟩
      rw [lastSet_append]
      by_cases h : call.1 = key
      · subst h
        rw [if_pos rfl]
        exact hset
      · rw [if_neg h, hothers key (Ne.symm h)]
        exact hreads key

/-- A key is set and another one turned into a string. -/
theorem set_config_reads_back_sample :
    ∃ result, setConfigs "CONFIG_A=y\n# CONFIG_B is not set\n".toList
        [(['B'], .integer 3), (['A'], .string ['x'])] = some result ∧
      ReadsBack "CONFIG_A=y\n# CONFIG_B is not set\n".toList
        [(['B'], .integer 3), (['A'], .string ['x'])] result := by
  refine set_config_reads_back _ _ ?_ ?_ _ List.prefix_rfl
  · intro call hcall
    rcases List.mem_cons.mp hcall with rfl | hcall
    · exact ⟨List.forall_mem_singleton.mpr rfl, trivial⟩
    · obtain rfl := List.mem_singleton.mp hcall
      exact ⟨List.forall_mem_singleton.mpr rfl, by decide, by decide, by decide, by decide⟩
  · intro before call after hcalls reached hreached
    cases before with
    | nil =>
        obtain ⟨rfl, -⟩ := List.cons.inj hcalls
        obtain rfl := Option.some.inj hreached
        exact ⟨fun _ => by decide, by decide, fun h => nomatch h⟩
    | cons first before =>
        obtain ⟨rfl, hlater⟩ := List.cons.inj hcalls
        cases before with
        | nil =>
            obtain ⟨rfl, -⟩ := List.cons.inj hlater
            obtain rfl := Option.some.inj hreached
            exact ⟨fun _ => by decide, by decide, fun h => nomatch h⟩
        | cons second before =>
            have hnil := (List.cons.inj hlater).2
            exact absurd hnil (by simp)

/-- The comment line of an unset key leaves the earlier assignment in force. -/
theorem unset_key_stays_set :
    ¬∀ (text : List Char) (calls : List (List Char × ConfigValue)),
      (∀ call ∈ calls, ValidKey call.1 ∧ ValidValue call.2) →
        ∃ result, setConfigs text calls = some result ∧ ReadsBack text calls result := by
  intro hall
  obtain ⟨result, hresult, hreads⟩ := hall "CONFIG_A=y\n".toList [(['A'], .bool false)]
    fun call hcall => by
      obtain rfl := List.mem_singleton.mp hcall
      exact ⟨List.forall_mem_singleton.mpr rfl, trivial⟩
  obtain rfl := Option.some.inj hresult
  have hread : Reads (.bool false) (some (.bool true)) := hreads ['A']
  rcases hread with heq | ⟨-, hnone⟩
  · cases heq
  · cases hnone

end Xhive.Modules
