import Mathlib

/-!
# Text functions of GNU make

Make has one type of value, text, and its list functions work on the words of a
text: maximal runs of characters that are not white space. This file has the
word splitting and the few functions the makefiles need, with the lemmas by which
a value is followed through them.

`words_append_space` splits at a white space character, `words_of_noSpace` reads
a text with no white space back as its only word, and `patsubst_single` is the
pattern substitution on such a text.
-/

namespace GnuMake

/-- A text, as its characters. -/
abbrev Text := List Char

instance : LawfulBEq Text := inferInstanceAs (LawfulBEq (List Char))

/-- A text written out. It is unfolded only where characters are compared. -/
@[irreducible] def lit (s : String) : Text := s.toList

/-- White space between words : what C calls `isspace`. -/
def isSpace (c : Char) : Bool :=
  c == ' ' || c == '\t' || c == '\n' || c == '\x0b' || c == '\x0c' || c == '\r'

/-- The words of a text. -/
def words (t : Text) : List Text :=
  (t.splitOnP isSpace).filter (· ≠ [])

/-- Words joined with single spaces, as every list function leaves them. -/
def unwords : List Text → Text
  | [] => []
  | [w] => w
  | w :: v :: ws => w ++ ' ' :: unwords (v :: ws)

/-- What is asked of the characters of a text is decided for these, not for all that there
are. -/
instance decidableForallMem {p : Char → Prop} [DecidablePred p] (t : Text) :
    Decidable (∀ c ∈ t, p c) :=
  List.decidableBAll p t

/-- `NoSpace t` : no character of `t` is white space. -/
def NoSpace (t : Text) : Prop := ∀ c ∈ t, isSpace c = false

instance (t : Text) : Decidable (NoSpace t) :=
  inferInstanceAs (Decidable (∀ c ∈ t, isSpace c = false))

theorem words_of_noSpace {t : Text} (h : NoSpace t) (hne : t ≠ []) : words t = [t] := by
  rw [words, List.splitOnP_eq_singleton h]
  simp [hne]

@[simp] theorem words_nil : words [] = [] := by simp [words]

/-- A white space character ends a word. -/
theorem words_append_space (a b : Text) {c : Char} (hc : isSpace c) :
    words (a ++ c :: b) = words a ++ words b := by
  rw [words, List.splitOnP_append_cons _ _ hc, List.filter_append, words, words]

/-- A text with a white space character splits at its first one. -/
theorem exists_first_space {t : Text} (h : ¬NoSpace t) :
    ∃ a c b, t = a ++ c :: b ∧ NoSpace a ∧ isSpace c := by
  induction t with
  | nil => simp [NoSpace] at h
  | cons d t ih =>
    by_cases hd : isSpace d
    · exact ⟨[], d, t, rfl, by simp [NoSpace], hd⟩
    · have ht : ¬NoSpace t := fun ht => h fun c hc => by
        rcases List.mem_cons.mp hc with rfl | hc
        · simpa using hd
        · exact ht c hc
      obtain ⟨a, c, b, rfl, ha, hc⟩ := ih ht
      refine ⟨d :: a, c, b, rfl, fun x hx => ?_, hc⟩
      rcases List.mem_cons.mp hx with rfl | hx
      · simpa using hd
      · exact ha x hx

theorem mem_words {w t : Text} (h : w ∈ words t) : w ≠ [] ∧ NoSpace w := by
  induction hn : t.length using Nat.strongRecOn generalizing t with
  | ind n ih =>
    by_cases hsp : NoSpace t
    · by_cases hne : t = []
      · simp [hne] at h
      · rw [words_of_noSpace hsp hne, List.mem_singleton] at h
        exact h ▸ ⟨hne, hsp⟩
    · obtain ⟨a, c, b, rfl, -, hc⟩ := exists_first_space hsp
      simp only [List.length_append, List.length_cons] at hn
      rw [words_append_space a b hc, List.mem_append] at h
      rcases h with h | h
      · exact ih a.length (by omega) h rfl
      · exact ih b.length (by omega) h rfl

theorem words_unwords (ts : List Text) : words (unwords ts) = ts.flatMap words := by
  induction ts with
  | nil => simp [unwords]
  | cons t ts ih =>
    cases ts with
    | nil => simp [unwords]
    | cons u us =>
      rw [unwords, words_append_space _ _ (by decide), ih]
      rfl

/-! ## Texts side by side -/

/-- The last word of `y` and the first word of `m` are one in `y ++ m`. -/
def Joined (y m : Text) : Prop :=
  (∃ c ∈ y.getLast?, isSpace c = false) ∧ ∃ c ∈ m.head?, isSpace c = false

theorem words_append_of_noSpace {y m : Text} (hy : NoSpace y) (hne : y ≠ []) {c : Char}
    (hm : m.head? = some c) (hc : isSpace c = false) :
    ∃ b ms, words m = b :: ms ∧ words (y ++ m) = (y ++ b) :: ms := by
  by_cases hsp : NoSpace m
  · have hm₀ : m ≠ [] := fun h => by simp [h] at hm
    refine ⟨m, [], words_of_noSpace hsp hm₀, words_of_noSpace (fun d hd => ?_) (by simp [hne])⟩
    rcases List.mem_append.mp hd with hd | hd
    · exact hy d hd
    · exact hsp d hd
  · obtain ⟨a, d, b, rfl, ha, hd⟩ := exists_first_space hsp
    have ha₀ : a ≠ [] := by
      rintro rfl
      simp only [List.nil_append, List.head?_cons, Option.some.injEq] at hm
      rw [hm, hc] at hd
      cases hd
    have hya : NoSpace (y ++ a) := fun e he => by
      rcases List.mem_append.mp he with he | he
      · exact hy e he
      · exact ha e he
    refine ⟨a, words b, ?_, ?_⟩
    · rw [words_append_space a b hd, words_of_noSpace ha ha₀, List.singleton_append]
    · rw [← List.append_assoc, words_append_space _ b hd, words_of_noSpace hya (by simp [hne]),
        List.singleton_append]

/-- Two texts that are joined have one word less together. -/
theorem words_append_of_joined {y m : Text} (h : Joined y m) : ∃ ys a b ms,
    words y = ys ++ [a] ∧ words m = b :: ms ∧ words (y ++ m) = ys ++ (a ++ b) :: ms := by
  obtain ⟨⟨c, hc, hcs⟩, d, hd, hds⟩ := h
  induction hn : y.length using Nat.strongRecOn generalizing y with
  | ind n ih =>
    by_cases hsp : NoSpace y
    · have hne : y ≠ [] := fun h => by simp [h] at hc
      obtain ⟨b, ms, hm, hym⟩ := words_append_of_noSpace hsp hne hd hds
      exact ⟨[], y, b, ms, words_of_noSpace hsp hne, hm, hym⟩
    · obtain ⟨a, e, b, rfl, -, he⟩ := exists_first_space hsp
      have hb : b ≠ [] := by
        rintro rfl
        simp only [List.getLast?_append, List.getLast?_singleton, Option.some_or,
          Option.mem_def, Option.some.injEq] at hc
        rw [hc, hcs] at he
        cases he
      have hlast : (a ++ e :: b).getLast? = b.getLast? := by
        rw [List.getLast?_append_of_ne_nil _ (by simp), List.getLast?_cons_of_ne_nil hb]
      simp only [List.length_append, List.length_cons] at hn
      obtain ⟨ys, a', b', ms, hy, hm, hym⟩ := ih b.length (by omega) (hlast ▸ hc) rfl
      refine ⟨words a ++ ys, a', b', ms, ?_, hm, ?_⟩
      · rw [words_append_space a b he, hy, List.append_assoc]
      · rw [List.append_assoc, List.cons_append, words_append_space _ _ he, hym,
          List.append_assoc]

/-- Two texts that are not joined keep their words. -/
theorem words_append_of_not_joined {y m : Text} (h : ¬Joined y m) :
    words (y ++ m) = words y ++ words m := by
  rcases List.eq_nil_or_concat y with rfl | ⟨y, c, rfl⟩
  · simp
  · cases m with
    | nil => simp
    | cons d m =>
      rw [List.concat_eq_append] at h ⊢
      by_cases hc : isSpace c
      · rw [List.append_assoc, List.singleton_append, words_append_space _ _ hc,
          words_append_space _ _ hc, words_nil, List.append_nil]
      · have hd : isSpace d := by
          by_contra hd
          exact h ⟨⟨c, by simp, by simpa using hc⟩, d, by simp, by simpa using hd⟩
        have hm := words_append_space [] m hd
        rw [List.nil_append, words_nil, List.nil_append] at hm
        rw [words_append_space _ _ hd, hm]

/-! ## Lists of make -/

/-- `$(foreach x,t,f)`. -/
def foreach (f : Text → Text) (t : Text) : Text := unwords ((words t).map f)

/-- `$(if c,w)` in a foreach over words : the word, or nothing. -/
theorem mem_foreach_if {c : Text → Prop} [DecidablePred c] {t n : Text} :
    n ∈ words (foreach (fun w => if c w then w else []) t) ↔ n ∈ words t ∧ c n := by
  rw [foreach, words_unwords, List.mem_flatMap]
  constructor
  · rintro ⟨u, hu, hn⟩
    obtain ⟨w, hw, rfl⟩ := List.mem_map.mp hu
    split_ifs at hn with hc
    · rw [words_of_noSpace (mem_words hw).2 (mem_words hw).1, List.mem_singleton] at hn
      exact hn ▸ ⟨hw, hc⟩
    · simp at hn
  · rintro ⟨hn, hc⟩
    refine ⟨n, List.mem_map.mpr ⟨n, hn, if_pos hc⟩, ?_⟩
    rw [words_of_noSpace (mem_words hn).2 (mem_words hn).1]
    exact List.mem_singleton_self n

/-- `x += t`. -/
def appendVar (x t : Text) : Text := if x = [] then t else x ++ ' ' :: t

@[simp] theorem words_appendVar (x t : Text) : words (appendVar x t) = words x ++ words t := by
  unfold appendVar
  split_ifs with h
  · simp [h]
  · exact words_append_space x t (by decide)

/-! ## Pattern substitution -/

/-- The part of `w` between `pre` and `post`, if `w` has both and they do not
overlap. -/
def stem (pre post w : Text) : Option Text :=
  if pre.length + post.length ≤ w.length ∧ pre <+: w ∧ post <:+ w then
    some ((w.drop pre.length).take (w.length - pre.length - post.length))
  else none

/-- The words `$(patsubst pre%post,%,t)` is made of : a word that does not match is
kept, a match is replaced by its stem, and a null replacement leaves no word. -/
def patsubstWords (pre post t : Text) : List Text :=
  (words t).filterMap fun w =>
    match stem pre post w with
    | some [] => none
    | some s => some s
    | none => some w

/-- `$(patsubst pre%post,%,t)`, that is `$(t:pre%post=%)`. -/
def patsubst (pre post t : Text) : Text :=
  unwords (patsubstWords pre post t)

theorem stem_append (pre s post : Text) : stem pre post (pre ++ s ++ post) = some s := by
  rw [stem, if_pos ⟨by simp, by simp [List.append_assoc], List.suffix_append _ _⟩]
  simp

/-- On a text that is one matching word the substitution leaves the stem. -/
theorem patsubst_single {pre s post : Text} (h : NoSpace (pre ++ s ++ post)) (hpre : pre ≠ []) :
    patsubst pre post (pre ++ s ++ post) = s := by
  have hw : words (pre ++ s ++ post) = [pre ++ s ++ post] :=
    words_of_noSpace h (by simp [hpre])
  have hs := stem_append pre s post
  rw [patsubst, patsubstWords, hw, List.filterMap_cons, hs, List.filterMap_nil]
  cases s <;> rfl

theorem count_unwords {c : Char} (hc : c ≠ ' ') :
    ∀ ws : List Text, (unwords ws).count c = (ws.map (List.count c)).sum
  | [] => rfl
  | [w] => by simp [unwords]
  | w :: v :: ws => by
    rw [unwords, List.count_append, List.count_cons_of_ne (Ne.symm hc), count_unwords hc (v :: ws)]
    rfl

theorem mem_unwords_of_mem {w : Text} {c : Char} (hc : c ∈ w) :
    ∀ ws : List Text, w ∈ ws → c ∈ unwords ws
  | [], h => by simp at h
  | [v], h => by
    obtain rfl := List.mem_singleton.mp h
    exact hc
  | v :: u :: ws, h => by
    rw [unwords, List.mem_append, List.mem_cons]
    rcases List.mem_cons.mp h with rfl | h
    · exact Or.inl hc
    · exact Or.inr (Or.inr (mem_unwords_of_mem hc (u :: ws) h))

/-- Splitting into words drops white space only. -/
theorem sum_count_words {c : Char} (hc : isSpace c = false) (t : Text) :
    ((words t).map (List.count c)).sum = t.count c := by
  induction hn : t.length using Nat.strongRecOn generalizing t with
  | ind n ih =>
    by_cases h : NoSpace t
    · by_cases hne : t = []
      · simp [hne]
      · simp [words_of_noSpace h hne]
    · obtain ⟨a, d, b, rfl, -, hd⟩ := exists_first_space h
      have hdc : d ≠ c := by
        rintro rfl
        simp [hc] at hd
      simp only [List.length_append, List.length_cons] at hn
      rw [words_append_space a b hd, List.map_append, List.sum_append, ih _ (by omega) a rfl,
        ih _ (by omega) b rfl, List.count_append, List.count_cons_of_ne hdc]

theorem eq_append_of_stem {pre post w s : Text} (h : stem pre post w = some s) :
    w = pre ++ s ++ post := by
  unfold stem at h
  split_ifs at h with hw
  obtain ⟨hlen, ⟨u, rfl⟩, hpost⟩ := hw
  obtain ⟨v, hv⟩ := hpost
  simp only [List.length_append] at hlen
  have hu : post <:+ u := by
    have hp : post <:+ pre ++ u := ⟨v, hv⟩
    exact List.suffix_of_suffix_length_le hp (List.suffix_append _ _) (by omega)
  obtain ⟨s', rfl⟩ := hu
  simp only [List.drop_left, List.length_append, Option.some.injEq] at h
  rw [← h]
  simp

/-- The substitution removes characters of the pattern only. -/
theorem count_patsubst {pre post t : Text} {c : Char} (hc : isSpace c = false)
    (hpre : c ∉ pre) (hpost : c ∉ post) : (patsubst pre post t).count c = t.count c := by
  have hsp : c ≠ ' ' := by
    rintro rfl
    simp [isSpace] at hc
  rw [patsubst, count_unwords hsp, ← sum_count_words hc t, patsubstWords]
  induction words t with
  | nil => rfl
  | cons w ws ih =>
    have hw : ∀ s, stem pre post w = some s → w.count c = s.count c := fun s hs => by
      rw [eq_append_of_stem hs]
      simp [List.count_eq_zero_of_not_mem hpre, List.count_eq_zero_of_not_mem hpost]
    rw [List.filterMap_cons, List.map_cons, List.sum_cons]
    split
    · rename_i hnone
      split at hnone
      · rename_i hs
        rw [ih, hw _ hs]
        simp
      all_goals simp at hnone
    · rename_i s hsome
      rw [List.map_cons, List.sum_cons, ih]
      split at hsome
      · simp at hsome
      · rename_i s' _ hs
        obtain rfl := Option.some.inj hsome
        rw [hw _ hs]
      · obtain rfl := Option.some.inj hsome
        rfl

/-- A word that does not match the pattern stays. -/
theorem mem_patsubst {pre post t w : Text} {c : Char} (hw : w ∈ words t)
    (hs : stem pre post w = none) (hc : c ∈ w) : c ∈ patsubst pre post t := by
  refine mem_unwords_of_mem hc _ (List.mem_filterMap.mpr ⟨w, hw, ?_⟩)
  rw [hs]

/-! ## Filters -/

/-- `$(filter-out ps,t)` for patterns without `%`. -/
def filterOut (ps : List Text) (t : Text) : Text :=
  unwords ((words t).filter (· ∉ ps))

/-- `$(findstring f,t)` : `f` if it occurs in `t`, else nothing. -/
def findstring (f t : Text) : Text :=
  if f <:+: t then f else []

/-- Whatever is searched, looking for nothing gives nothing. -/
@[simp] theorem findstring_nil (t : Text) : findstring [] t = [] := by
  simp [findstring]

end GnuMake
