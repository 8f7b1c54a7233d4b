import Makeroot.MakeText

/-!
# The command line of a sub-make

A recipe line reaches a sub-make as text : the shell splits it into words and removes
the quotes, and make takes each word with a `=` as a variable definition and any
other as a goal. Definitions on a command line are passed on to every sub-make below
it, where a new definition of the same variable takes their place.

`shellWords_cmdLine` reads a line of plain words back; `shellWords_quoted` and
`shellWords_plain` read the part of the line a make variable was spliced into.
-/

namespace GnuMake

/-- The characters the shell reads as themselves, wherever they stand in a word. -/
def isPlain (c : Char) : Bool := !isSpace c && !"\"'\\$`&|;<>()*?[]#~{}!".toList.contains c

/-- A word that is itself to the shell. -/
def PlainWord (w : Text) : Prop := w ≠ [] ∧ ∀ c ∈ w, isPlain c = true

instance (w : Text) : Decidable (PlainWord w) := inferInstanceAs (Decidable (_ ∧ _))

/-- Split a command line into words, where `cur` is the word being read, backwards, and
`quoted` says that a double quote is open. -/
def shellSplit : Option Text → Bool → Text → List Text
  | none, _, [] => []
  | some w, _, [] => [w.reverse]
  | cur, true, c :: t =>
    if c = '"' then shellSplit cur false t else shellSplit (some (c :: cur.getD [])) true t
  | cur, false, c :: t =>
    if c = '"' then shellSplit (some (cur.getD [])) true t
    else if isSpace c then (cur.map List.reverse).toList ++ shellSplit none false t
    else shellSplit (some (c :: cur.getD [])) false t

/-- The words of a command line. -/
def shellWords (t : Text) : List Text := shellSplit none false t

/-- A line of words, with the text `rest` after them. -/
def cmdLine (ws : List Text) (rest : Text) : Text :=
  ws.foldr (fun w t => w ++ ' ' :: t) rest

theorem isPlain_spec {c : Char} (hc : isPlain c = true) : c ≠ '"' ∧ isSpace c = false := by
  constructor
  · rintro rfl
    revert hc
    decide +kernel
  · simp only [isPlain, Bool.and_eq_true, Bool.not_eq_true'] at hc
    exact hc.1

theorem shellSplit_append (w : Text) (h : ∀ c ∈ w, isPlain c = true) (t : Text) :
    ∀ cur, w ≠ [] ∨ cur ≠ none →
      shellSplit cur false (w ++ t) = shellSplit (some (w.reverse ++ cur.getD [])) false t := by
  induction w with
  | nil =>
    intro cur hcur
    obtain ⟨u, rfl⟩ := Option.ne_none_iff_exists'.mp (hcur.resolve_left (by simp))
    rfl
  | cons c w ih =>
    intro cur _
    obtain ⟨hq, hs⟩ := isPlain_spec (h c (by simp))
    rw [List.cons_append, shellSplit, if_neg hq, if_neg (by simp [hs]),
      ih (fun d hd => h d (by simp [hd])) _ (Or.inr (by simp))]
    simp

/-- A plain word and the space after it. -/
theorem shellWords_word {w : Text} (hw : PlainWord w) (t : Text) :
    shellWords (w ++ ' ' :: t) = w :: shellWords t := by
  rw [shellWords, shellSplit_append w hw.2 _ none (Or.inl hw.1)]
  simp [shellSplit, isSpace, shellWords]

/-- A plain word at the end of the line. -/
theorem shellWords_plain {w : Text} (hw : PlainWord w) : shellWords w = [w] := by
  have h := shellSplit_append w hw.2 [] none (Or.inl hw.1)
  rw [List.append_nil] at h
  rw [shellWords, h]
  simp [shellSplit]

/-- Words in front of a text are read one by one. -/
theorem shellWords_cmdLine (ws : List Text) (h : ∀ w ∈ ws, PlainWord w) (rest : Text) :
    shellWords (cmdLine ws rest) = ws ++ shellWords rest := by
  induction ws with
  | nil => rfl
  | cons w ws ih =>
    show shellWords (w ++ ' ' :: cmdLine ws rest) = w :: (ws ++ shellWords rest)
    rw [shellWords_word (h w (by simp)), ih fun v hv => h v (by simp [hv])]

/-! ## A running make -/

/-- A make process : the variables defined on its command line and on the command
lines above it, the nearest first, and the goals it was given. -/
structure Proc where
  vars : List (Text × Text)
  goals : List Text

/-- The value of a command line variable, empty if there is none. -/
def Proc.var (p : Proc) (x : Text) : Text :=
  ((p.vars.find? fun d => d.1 = x).map Prod.snd).getD []

/-- Take the words of a command line, definitions and goals. After `-f`, which `file`
remembers, the next word is the makefile. -/
def readArgs : Bool → List Text → Proc → Proc
  | _, [], p => p
  | true, _ :: ws, p => readArgs false ws p
  | false, w :: ws, p =>
    if w = lit "-f" then readArgs true ws p
    else if '=' ∈ w then
      readArgs false ws
        { p with vars := (w.takeWhile (· != '='), (w.dropWhile (· != '=')).tail) :: p.vars }
    else readArgs false ws { p with goals := p.goals ++ [w] }

/-- The make a command line starts, under a make with the variables `vars`. -/
def subMake (vars : List (Text × Text)) (line : Text) : Proc :=
  readArgs false (shellWords line).tail ⟨vars, []⟩

theorem plainWord_append {a w : Text} (ha : ∀ c ∈ a, isPlain c = true) (hw : PlainWord w) :
    PlainWord (a ++ w) :=
  ⟨by simp [hw.1], fun c hc => (List.mem_append.mp hc).elim (ha c) (hw.2 c)⟩

/-- A word `x=v` defines `x`. -/
theorem readArgs_define {x v : Text} (hx : '=' ∉ x) (ws : List Text) (p : Proc) :
    readArgs false ((x ++ '=' :: v) :: ws) p =
      readArgs false ws { p with vars := (x, v) :: p.vars } := by
  have hf : x ++ '=' :: v ≠ lit "-f" := fun h => by
    have hm : '=' ∈ lit "-f" := h ▸ by simp
    revert hm
    decide +kernel
  have hne : ∀ c ∈ x, (c != '=') = true := fun c hc => by
    simp only [bne_iff_ne, ne_eq]
    rintro rfl
    exact hx hc
  rw [readArgs, if_neg hf, if_pos (by simp), List.takeWhile_append_of_pos hne,
    List.dropWhile_append_of_pos hne]
  simp

/-- Any other word is a goal. -/
theorem readArgs_goal {w : Text} (hw : '=' ∉ w) (hf : w ≠ lit "-f") (ws : List Text) (p : Proc) :
    readArgs false (w :: ws) p = readArgs false ws { p with goals := p.goals ++ [w] } := by
  rw [readArgs, if_neg hf, if_neg hw]

/-- The nearest definition of a variable counts. -/
theorem var_cons_self (x v : Text) (vars : List (Text × Text)) (gs : List Text) :
    Proc.var ⟨(x, v) :: vars, gs⟩ x = v := by
  simp [Proc.var]

theorem var_cons_of_ne {x y : Text} (h : y ≠ x) (v : Text) (vars : List (Text × Text))
    (gs gs' : List Text) : Proc.var ⟨(y, v) :: vars, gs⟩ x = Proc.var ⟨vars, gs'⟩ x := by
  simp [Proc.var, h]

end GnuMake
