import Makeroot.MakeText

/-!
# String options, from `conf_write` to the makefiles

`conf_write` (scripts/kconfig/confdata.c) writes a string option as
`CONFIG_X="..."`, with a backslash before each quote and each backslash. The
makefiles include that file and read the option with `$(CONFIG_X:"%"=%)`. Between
the two stands make's own reading of the line : a `#` starts a comment, a `$`
starts a reference, and the substitution works on each word of the value.

`confWriteString_eq` gives the writer's loop as a map over the characters.
`readConfig_confLine` is the agreement : the makefiles get back exactly the value,
whatever the other make variables hold, if and only if the value has no white
space and none of `#`, `$`, `"` and backslash.
-/

namespace Makeroot

open GnuMake

/-! ## The writer -/

/-- The characters `strcspn(str, "\"\\")` stops at. -/
def needsBackslash (c : Char) : Bool := c == '"' || c == '\\'

/-- The `do ... while (*str)` loop of the `S_STRING` case : copy up to the next
character to escape, then write a backslash before each of those that follow. -/
def confWriteString (str : Text) : Text :=
  let l := str.takeWhile fun c => !needsBackslash c
  let rest := str.dropWhile fun c => !needsBackslash c
  let quoted := rest.takeWhile needsBackslash
  let str' := rest.dropWhile needsBackslash
  l ++ quoted.flatMap (fun c => ['\\', c]) ++ if str' = [] then [] else confWriteString str'
termination_by str.length
decreasing_by
  rename_i h
  have hq : rest.takeWhile needsBackslash ≠ [] := by
    intro hq
    cases hr : rest with
    | nil => exact h (by simp [str', hr])
    | cons c cs =>
      have hc := List.head?_dropWhile_not (fun c => !needsBackslash c) str
      have : needsBackslash c = true := by simpa [rest, hr] using hc
      simp [hr, this] at hq
  have h1 := congrArg List.length (List.takeWhile_append_dropWhile (p := needsBackslash) (l := rest))
  have h2 := congrArg List.length
    (List.takeWhile_append_dropWhile (p := fun c => !needsBackslash c) (l := str))
  have h3 := List.length_pos_iff.mpr hq
  simp only [List.length_append] at h1 h2
  show (rest.dropWhile needsBackslash).length < str.length
  have h4 : rest.length ≤ str.length := by simp only [rest]; omega
  omega

/-- What the writer leaves for one character. -/
def escapeChar (c : Char) : Text := if needsBackslash c then ['\\', c] else [c]

theorem flatMap_escapeChar_of_all {t : Text} (h : ∀ c ∈ t, needsBackslash c = true) :
    t.flatMap escapeChar = t.flatMap fun c => ['\\', c] :=
  List.flatMap_congr fun c hc => by simp [escapeChar, h c hc]

theorem flatMap_escapeChar_of_none {t : Text} (h : ∀ c ∈ t, needsBackslash c = false) :
    t.flatMap escapeChar = t := by
  rw [List.flatMap_congr (g := fun c => [c]) fun c hc => by simp [escapeChar, h c hc]]
  simp

/-- The loop escapes each character in turn. -/
theorem confWriteString_eq (str : Text) : confWriteString str = str.flatMap escapeChar := by
  fun_induction confWriteString str with
  | case1 str l rest quoted str' ih =>
    have hsplit : str = l ++ (quoted ++ str') := by
      simp only [l, quoted, str', rest, List.takeWhile_append_dropWhile]
    have hl : l.flatMap escapeChar = l := flatMap_escapeChar_of_none fun c hc => by
      simpa using List.mem_takeWhile_imp hc
    have hq : quoted.flatMap escapeChar = quoted.flatMap fun c => ['\\', c] :=
      flatMap_escapeChar_of_all fun c hc => List.mem_takeWhile_imp hc
    conv_rhs => rw [hsplit]
    rw [List.flatMap_append, List.flatMap_append, hl, hq, List.append_assoc]
    split_ifs with h
    · simp [h]
    · rw [ih h]

/-- The name of an option : letters, digits and `_`. -/
abbrev SymName := {x : Text // ∀ c ∈ x, c.isAlphanum || c == '_'}

/-- `CONFIG_` and the name, the make variable of an option. -/
def configVar (x : SymName) : Text := ['C', 'O', 'N', 'F', 'I', 'G', '_'] ++ x.val

/-- The line `conf_write` prints for a string option. -/
def confLine (x : SymName) (v : Text) : Text :=
  configVar x ++ '=' :: '"' :: confWriteString v ++ ['"']

/-! ## The reader -/

/-- Where make stands in a line : outside references after `n` backslashes, just after
a `$`, or inside a reference opened by `o` and closed by `c`, `n` deep, whose text so
far is `acc` backwards. -/
inductive ReadMode
  | text (n : ℕ)
  | dollar
  | inside (o c : Char) (n : ℕ) (acc : Text)

/-- The mode after the character that follows a `$`. -/
def afterDollar (c : Char) : ReadMode :=
  if c = '(' then .inside '(' ')' 0 [] else if c = '{' then .inside '{' '}' 0 [] else .text 0

/-- The mode after `d` in a reference, or `none` where `d` closes it. -/
def insideStep (o c : Char) (n : ℕ) (acc : Text) (d : Char) : Option ReadMode :=
  if d = c then if n = 0 then none else some (.inside o c (n - 1) (d :: acc))
  else if d = o then some (.inside o c (n + 1) (d :: acc))
  else some (.inside o c n (d :: acc))

/-- Cut a makefile line at its comment. Backslashes before a `#` are halved, and an odd
one makes the `#` literal; inside a reference a `#` is literal. -/
def removeComments : ReadMode → Text → Text
  | .text n, [] => List.replicate n '\\'
  | .text n, c :: t =>
    if c = '\\' then removeComments (.text (n + 1)) t
    else if c = '#' then
      List.replicate (n / 2) '\\' ++
        if n % 2 = 1 then '#' :: removeComments (.text 0) t else []
    else List.replicate n '\\' ++
      c :: removeComments (if c = '$' then .dollar else .text 0) t
  | .dollar, [] => []
  | .dollar, c :: t => c :: removeComments (afterDollar c) t
  | .inside .., [] => []
  | .inside o c n acc, d :: t =>
    d :: removeComments ((insideStep o c n acc d).getD (.text 0)) t

/-- Expand a text, where `ref` is what a reference to each name expands to : `none` for
make's "unterminated variable reference". -/
def expand (ref : Text → Text) : ReadMode → Text → Option Text
  | .text _, [] => some []
  | .text n, c :: t =>
    if c = '$' then expand ref .dollar t else (expand ref (.text n) t).map (c :: ·)
  | .dollar, [] => some []
  | .dollar, c :: t =>
    if c = '$' then (expand ref (.text 0) t).map ('$' :: ·)
    else if c = '(' ∨ c = '{' then expand ref (afterDollar c) t
    else (expand ref (.text 0) t).map (ref [c] ++ ·)
  | .inside .., [] => none
  | .inside o c n acc, d :: t =>
    match insideStep o c n acc d with
    | none => (expand ref (.text 0) t).map (ref acc.reverse ++ ·)
    | some m => expand ref m t

/-- The value a line `x=...` gives to the variable `x`. -/
def assignedValue (x line : Text) : Option Text :=
  let t := removeComments (.text 0) line
  if t.takeWhile (· != '=') = x then (t.dropWhile (· != '=')).tail?.map (List.dropWhile isSpace)
  else none

/-- `$(CONFIG_X:"%"=%)` after the inclusion of `line`. -/
def readConfig (ref : Text → Text) (x : SymName) (line : Text) : Option Text :=
  ((assignedValue (configVar x) line).bind (expand ref (.text 0))).map (patsubst ['"'] ['"'])

/-! ## What make's reading keeps -/

/-- The backslashes a mode holds back. -/
def ReadMode.pending : ReadMode → Text
  | .text n => List.replicate n '\\'
  | _ => []

/-- Cutting the comment only drops characters. -/
theorem removeComments_sublist : ∀ (t : Text) (m : ReadMode),
    (removeComments m t).Sublist (m.pending ++ t)
  | [], .text n => by simp [removeComments, ReadMode.pending]
  | [], .dollar => by simp [removeComments]
  | [], .inside .. => by simp [removeComments]
  | c :: t, .text n => by
    have hhalf : (List.replicate (n / 2) '\\').Sublist (List.replicate n '\\') :=
      (List.replicate_sublist_replicate '\\').mpr (Nat.div_le_self n 2)
    rw [removeComments, ReadMode.pending]
    split_ifs with hb hh hn hd
    · subst hb
      simpa [ReadMode.pending, List.replicate_succ'] using
        removeComments_sublist t (.text (n + 1))
    · subst hh
      exact hhalf.append ((removeComments_sublist t (.text 0)).cons_cons _)
    · exact hhalf.append (List.nil_sublist _)
    · exact (List.Sublist.refl _).append ((removeComments_sublist t .dollar).cons_cons _)
    · exact (List.Sublist.refl _).append ((removeComments_sublist t (.text 0)).cons_cons _)
  | c :: t, .dollar => by
    have h := removeComments_sublist t (afterDollar c)
    have hp : (afterDollar c).pending = [] := by
      unfold afterDollar
      split_ifs <;> rfl
    rw [hp] at h
    exact h.cons_cons c
  | d :: t, .inside o c n acc => by
    have h := removeComments_sublist t ((insideStep o c n acc d).getD (.text 0))
    have hp : ((insideStep o c n acc d).getD (.text 0)).pending = [] := by
      unfold insideStep
      split_ifs <;> rfl
    rw [hp] at h
    exact h.cons_cons d

/-- A line with neither comment nor reference is kept. -/
theorem removeComments_of_notMem : ∀ (t : Text) (n : ℕ), '#' ∉ t → '$' ∉ t →
    removeComments (.text n) t = List.replicate n '\\' ++ t
  | [], n, _, _ => by simp [removeComments]
  | c :: t, n, hh, hd => by
    simp only [List.mem_cons, not_or] at hh hd
    rw [removeComments, if_neg (Ne.symm hh.1), if_neg (Ne.symm hd.1)]
    split_ifs with hb
    · rw [removeComments_of_notMem t (n + 1) hh.2 hd.2, hb, List.replicate_succ']
      simp
    · rw [removeComments_of_notMem t 0 hh.2 hd.2]
      rfl

theorem removeComments_append : ∀ (p t : Text), '#' ∉ p → '$' ∉ p → '\\' ∉ p →
    removeComments (.text 0) (p ++ t) = p ++ removeComments (.text 0) t
  | [], _, _, _, _ => rfl
  | c :: p, t, hh, hd, hb => by
    simp only [List.mem_cons, not_or] at hh hd hb
    rw [List.cons_append, removeComments, if_neg (Ne.symm hb.1), if_neg (Ne.symm hh.1),
      if_neg (Ne.symm hd.1), removeComments_append p t hh.2 hd.2 hb.2]
    rfl

/-- The writer leaves an even number of backslashes before every `#`, so the first one
starts a comment. -/
theorem hash_notMem_removeComments : ∀ (a r : Text) (n : ℕ), '#' ∉ a → '$' ∉ a → n % 2 = 0 →
    '#' ∉ removeComments (.text n) (a.flatMap escapeChar ++ '#' :: r)
  | [], r, n, _, _, hn => by simp [removeComments, hn]
  | c :: a, r, n, hh, hd, hn => by
    simp only [List.mem_cons, not_or] at hh hd
    have hc : '#' ≠ c ∧ '$' ≠ c := ⟨hh.1, hd.1⟩
    rw [List.flatMap_cons, escapeChar]
    by_cases hb : c = '\\'
    · subst hb
      simpa [needsBackslash, removeComments] using
        hash_notMem_removeComments a r (n + 1 + 1) hh.2 hd.2 (by omega)
    · have ih := hash_notMem_removeComments a r 0 hh.2 hd.2 rfl
      by_cases hq : c = '"'
      · subst hq
        simpa [needsBackslash, removeComments] using ih
      · simpa [needsBackslash, removeComments, hb, hq, hc.1.symm, hc.2.symm, hc.1] using ih

/-- Where every variable is empty, expansion only drops characters. -/
theorem expand_sublist : ∀ (t : Text) (m : ReadMode) {x : Text},
    expand (fun _ => []) m t = some x → x.Sublist t
  | [], .text _, x, h => by simp_all [expand]
  | [], .dollar, x, h => by simp_all [expand]
  | [], .inside .., x, h => by simp [expand] at h
  | c :: t, .text n, x, h => by
    rw [expand] at h
    split_ifs at h with hd
    · exact (expand_sublist t .dollar h).cons c
    · obtain ⟨y, hy, rfl⟩ := Option.map_eq_some_iff.mp h
      exact (expand_sublist t (.text n) hy).cons_cons c
  | c :: t, .dollar, x, h => by
    rw [expand] at h
    split_ifs at h with hd ho
    · obtain ⟨y, hy, rfl⟩ := Option.map_eq_some_iff.mp h
      rw [hd]
      exact (expand_sublist t (.text 0) hy).cons_cons '$'
    · exact (expand_sublist t (afterDollar c) h).cons c
    · obtain ⟨y, hy, rfl⟩ := Option.map_eq_some_iff.mp h
      exact (expand_sublist t (.text 0) hy).cons c
  | d :: t, .inside o c n acc, x, h => by
    rw [expand] at h
    split at h
    · obtain ⟨y, hy, rfl⟩ := Option.map_eq_some_iff.mp h
      exact (expand_sublist t (.text 0) hy).cons d
    · rename_i m _
      exact (expand_sublist t m h).cons d

/-- Each `$` outside a reference is used up. -/
theorem count_dollar_expand : ∀ (t : Text) (n : ℕ) {x : Text}, '$' ∈ t →
    expand (fun _ => []) (.text n) t = some x → x.count '$' < t.count '$'
  | c :: t, n, x, hm, h => by
    rw [expand] at h
    split_ifs at h with hd
    · have := (expand_sublist t .dollar h).count_le '$'
      rw [hd, List.count_cons_self]
      omega
    · obtain ⟨y, hy, rfl⟩ := Option.map_eq_some_iff.mp h
      have hmt : '$' ∈ t := by
        rcases List.mem_cons.mp hm with rfl | hm
        · exact absurd rfl hd
        · exact hm
      rw [List.count_cons_of_ne hd, List.count_cons_of_ne hd]
      exact count_dollar_expand t n hmt hy

theorem expand_of_notMem (ref : Text → Text) : ∀ (t : Text) (n : ℕ), '$' ∉ t →
    expand ref (.text n) t = some t
  | [], _, _ => rfl
  | c :: t, n, h => by
    simp only [List.mem_cons, not_or] at h
    rw [expand, if_neg (Ne.symm h.1), expand_of_notMem ref t n h.2]
    rfl

/-! ## The agreement -/

/-- A value with no white space and no character that the writer escapes or make
reads. -/
def PlainValue (v : Text) : Prop :=
  ∀ c ∈ v, isSpace c = false ∧ needsBackslash c = false ∧ c ≠ '#' ∧ c ≠ '$'

instance (v : Text) : Decidable (PlainValue v) :=
  inferInstanceAs (Decidable (∀ c ∈ v, _))

/-- What is left of the line of `v` after its opening quote. -/
def lineTail (v : Text) : Text :=
  removeComments (.text 0) (v.flatMap escapeChar ++ ['"'])

theorem notMem_configVar (x : SymName) {c : Char} (hc : c.isAlphanum = false) (hu : c ≠ '_') :
    c ∉ configVar x := by
  intro h
  rcases List.mem_append.mp h with h | h
  · revert h
    simp only [List.mem_cons, List.not_mem_nil, or_false]
    rintro (rfl | rfl | rfl | rfl | rfl | rfl | rfl) <;> simp_all
  · have := x.property c h
    simp_all

/-- The makefiles see the opening quote and the tail of the line. -/
theorem readConfig_eq (ref : Text → Text) (x : SymName) (v : Text) :
    readConfig ref x (confLine x v) =
      (expand ref (.text 0) (lineTail v)).map fun t => patsubst ['"'] ['"'] ('"' :: t) := by
  have hpre : ∀ c ∈ ['#', '$', '\\'], c ∉ configVar x ++ ['=', '"'] := by
    intro c hc hm
    rcases List.mem_append.mp hm with hm | hm
    · revert hm
      simp only [List.mem_cons, List.not_mem_nil, or_false] at hc
      rcases hc with rfl | rfl | rfl <;> exact notMem_configVar x (by decide) (by decide)
    · simp only [List.mem_cons, List.not_mem_nil, or_false] at hc hm
      rcases hc with rfl | rfl | rfl <;> simp at hm
  have hline : removeComments (.text 0) (confLine x v) = configVar x ++ '=' :: '"' :: lineTail v := by
    have h := removeComments_append (configVar x ++ ['=', '"']) (v.flatMap escapeChar ++ ['"'])
      (hpre _ (by simp)) (hpre _ (by simp)) (hpre _ (by simp))
    simpa [confLine, confWriteString_eq, lineTail] using h
  have hne : ∀ c ∈ configVar x, (c != '=') = true := fun c hc => by
    simp only [bne_iff_ne, ne_eq]
    rintro rfl
    exact notMem_configVar x (by decide) (by decide) hc
  have hassign : assignedValue (configVar x) (confLine x v) = some ('"' :: lineTail v) := by
    rw [assignedValue, hline, List.takeWhile_append_of_pos hne, List.dropWhile_append_of_pos hne]
    simp [isSpace]
  rw [readConfig, hassign]
  simp [expand, Function.comp_def]

/-- A plain value is read back as it was written. -/
theorem readConfig_of_plain (ref : Text → Text) (x : SymName) {v : Text} (hv : PlainValue v) :
    readConfig ref x (confLine x v) = some v := by
  have hesc : v.flatMap escapeChar = v := flatMap_escapeChar_of_none fun c hc => (hv c hc).2.1
  have hh : '#' ∉ v ++ ['"'] := fun h => by
    rcases List.mem_append.mp h with h | h
    · exact (hv _ h).2.2.1 rfl
    · simp at h
  have hd : '$' ∉ v ++ ['"'] := fun h => by
    rcases List.mem_append.mp h with h | h
    · exact (hv _ h).2.2.2 rfl
    · simp at h
  have htail : lineTail v = v ++ ['"'] := by
    rw [lineTail, hesc, removeComments_of_notMem _ 0 hh hd]
    rfl
  have hns : NoSpace (['"'] ++ v ++ ['"']) := by
    intro c hc
    simp only [List.mem_append, List.mem_singleton] at hc
    rcases hc with (rfl | hc) | rfl
    · rfl
    · exact (hv c hc).1
    · rfl
  rw [readConfig_eq, htail, expand_of_notMem ref _ 0 hd, Option.map_some]
  exact congrArg some (patsubst_single hns (by simp))

/-- The first word of a quoted value with white space in it keeps its quote. -/
theorem quote_mem_patsubst {v : Text} (hq : '"' ∉ v) (hs : ¬NoSpace v) :
    '"' ∈ patsubst ['"'] ['"'] ('"' :: (v ++ ['"'])) := by
  obtain ⟨a, c, b, rfl, ha, hc⟩ := exists_first_space hs
  have hw : '"' :: a ∈ words ('"' :: (a ++ c :: b ++ ['"'])) := by
    have hns : NoSpace ('"' :: a) := fun d hd => by
      rcases List.mem_cons.mp hd with rfl | hd
      · rfl
      · exact ha d hd
    have := words_append_space ('"' :: a) (b ++ ['"']) hc
    rw [words_of_noSpace hns (by simp)] at this
    simpa using this ▸ List.mem_append_left _ (List.mem_singleton_self _)
  refine mem_patsubst hw ?_ (List.mem_cons_self)
  cases hst : stem ['"'] ['"'] ('"' :: a) with
  | none => rfl
  | some s =>
    have := eq_append_of_stem hst
    simp only [List.cons_append, List.nil_append, List.cons.injEq, true_and] at this
    exact absurd (by simp [this] : '"' ∈ a ++ c :: b) hq

theorem count_backslash_flatMap (v : Text) :
    (v.flatMap escapeChar).count '\\' = 2 * v.count '\\' + v.count '"' := by
  induction v with
  | nil => rfl
  | cons c v ih =>
    rw [List.flatMap_cons, List.count_append, ih, escapeChar]
    by_cases hb : c = '\\'
    · subst hb
      simp [needsBackslash]
      omega
    · by_cases hq : c = '"'
      · subst hq
        simp [needsBackslash]
        omega
      · simp [needsBackslash, hb, hq]

theorem count_dollar_flatMap (v : Text) : (v.flatMap escapeChar).count '$' = v.count '$' := by
  induction v with
  | nil => rfl
  | cons c v ih =>
    rw [List.flatMap_cons, List.count_append, ih, escapeChar]
    split_ifs with hc
    · simp [List.count_cons]
      omega
    · simp [List.count_cons, Nat.add_comm]

/-- A value that is read back exactly, where every other variable is empty, is plain. Each
special character is lost or gained : a `$` is used up, a `#` cuts the line, the
escapes stay, and white space keeps the quotes from matching. -/
theorem plain_of_readConfig {x : SymName} {v : Text}
    (h : readConfig (fun _ => []) x (confLine x v) = some v) : PlainValue v := by
  rw [readConfig_eq] at h
  obtain ⟨t, ht, hv⟩ := Option.map_eq_some_iff.mp h
  have hcount : ∀ c, isSpace c = false → c ≠ '"' → v.count c = t.count c := fun c hc hq => by
    rw [← hv, count_patsubst hc (by simpa using hq) (by simpa using hq),
      List.count_cons_of_ne (Ne.symm hq)]
  have htail := (removeComments_sublist (v.flatMap escapeChar ++ ['"']) (.text 0))
  have hdollar : '$' ∉ v := by
    intro hm
    have h1 := hcount '$' rfl (by decide)
    have h2 := htail.count_le '$'
    have h3 : 0 < v.count '$' := List.count_pos_iff.mpr hm
    simp only [ReadMode.pending, List.replicate_zero, List.nil_append, List.count_append,
      count_dollar_flatMap] at h2
    have h4 : ['"'].count '$' = 0 := rfl
    have h5 := (expand_sublist _ _ ht).count_le '$'
    have h6 : '$' ∈ lineTail v := List.count_pos_iff.mp (by rw [← h1] at h5; omega)
    have h7 := count_dollar_expand _ 0 h6 ht
    unfold lineTail at h7
    omega
  have hhash : '#' ∉ v := by
    intro hm
    obtain ⟨a, b, rfl, ha⟩ := List.eq_append_cons_of_mem hm
    simp only [List.mem_append, List.mem_cons, not_or] at hdollar
    have hn := hash_notMem_removeComments a (b.flatMap escapeChar ++ ['"']) 0 ha hdollar.1 rfl
    have h0 : t.count '#' = 0 := List.count_eq_zero_of_not_mem fun htm =>
      hn (by simpa [lineTail, escapeChar, needsBackslash] using (expand_sublist _ _ ht).subset htm)
    have := hcount '#' rfl (by decide)
    simp [h0] at this
  have hesc : ∀ c ∈ ['#', '$'], c ∉ v.flatMap escapeChar ++ ['"'] := by
    intro c hc hm
    simp only [List.mem_append, List.mem_flatMap, List.mem_singleton] at hm
    simp only [List.mem_cons, List.not_mem_nil, or_false] at hc
    rcases hm with ⟨d, hd, hcd⟩ | rfl
    · unfold escapeChar at hcd
      rcases hc with rfl | rfl <;> split_ifs at hcd <;> simp at hcd <;> subst hcd <;> contradiction
    · simp at hc
  have htext : t = v.flatMap escapeChar ++ ['"'] := by
    have hl : lineTail v = v.flatMap escapeChar ++ ['"'] :=
      removeComments_of_notMem _ 0 (hesc _ (by simp)) (hesc _ (by simp))
    rw [hl, expand_of_notMem _ _ 0 (hesc _ (by simp))] at ht
    exact (Option.some.inj ht).symm
  have hbs : v.count '\\' = 0 ∧ v.count '"' = 0 := by
    have := hcount '\\' rfl (by decide)
    rw [htext, List.count_append, count_backslash_flatMap] at this
    omega
  have hquote : '"' ∉ v := List.count_eq_zero.mp hbs.2
  have hback : '\\' ∉ v := List.count_eq_zero.mp hbs.1
  have hplain : ∀ c ∈ v, needsBackslash c = false := fun c hc => by
    simp only [needsBackslash, Bool.or_eq_false_iff, beq_eq_false_iff_ne]
    exact ⟨fun h => hquote (h ▸ hc), fun h => hback (h ▸ hc)⟩
  have hspace : NoSpace v := by
    by_contra hs
    have hm := quote_mem_patsubst hquote hs
    rw [flatMap_escapeChar_of_none hplain] at htext
    rw [← htext, hv] at hm
    exact hquote hm
  exact fun c hc => ⟨hspace c hc, hplain c hc, fun h => hhash (h ▸ hc), fun h => hdollar (h ▸ hc)⟩

/-- The makefiles read an option back as `conf_write` was given it, whatever the other
make variables hold, if and only if its value is plain. -/
theorem readConfig_confLine (x : SymName) (v : Text) :
    (∀ ref, readConfig ref x (confLine x v) = some v) ↔ PlainValue v :=
  ⟨fun h => plain_of_readConfig (h _), fun hv ref => readConfig_of_plain ref x hv⟩

/-- `GCC_FLAGS`, an option with several words. -/
def gccFlags : SymName := ⟨['G', 'C', 'C', '_', 'F', 'L', 'A', 'G', 'S'], by decide⟩

/-- Two compiler flags are read back with their quotes. -/
theorem readConfig_two_flags :
    readConfig (fun _ => []) gccFlags (confLine gccFlags ['-', 'O', '2', ' ', '-', 'g']) =
        some ['"', '-', 'O', '2', ' ', '-', 'g', '"'] ∧
      ¬∀ (x : SymName) (v : Text), '\n' ∉ v → ∀ ref, readConfig ref x (confLine x v) = some v := by
  have h : readConfig (fun _ => []) gccFlags (confLine gccFlags ['-', 'O', '2', ' ', '-', 'g']) =
      some ['"', '-', 'O', '2', ' ', '-', 'g', '"'] := by
    rw [readConfig_eq]
    decide
  refine ⟨h, fun hall => ?_⟩
  have := hall gccFlags ['-', 'O', '2', ' ', '-', 'g'] (by decide) fun _ => []
  rw [h] at this
  exact absurd this (by decide)

end Makeroot
