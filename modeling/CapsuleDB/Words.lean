import Mathlib.Data.List.Basic

/-!
# The words of a text

A text is a list of symbols, some of which separate. Its words are the longest
parts without a separator. Reading word by word from the front gives them in
order, and a word with a separator behind it is the first word of what it
begins.
-/

namespace CapsuleDB.Words

variable {α : Type*} (sep : α → Bool)

/-- The words of a text, in order. -/
def words (text : List α) : List (List α) := (text.splitOnP sep).filter fun w => !w.isEmpty

/-- The first word, empty when there is none. -/
def firstWord (text : List α) : List α := (text.dropWhile sep).takeWhile fun a => !sep a

/-- What follows the first word. -/
def afterWord (text : List α) : List α := (text.dropWhile sep).dropWhile fun a => !sep a

variable {sep}

/-- A word has symbols, and none of them separates. -/
def IsWord (sep : α → Bool) (w : List α) : Prop := w ≠ [] ∧ ∀ a ∈ w, sep a = false

@[simp] theorem words_nil : words sep ([] : List α) = [] := rfl

/-- A separator in front makes no difference. -/
theorem words_cons_sep {a : α} (ha : sep a = true) (text : List α) :
    words sep (a :: text) = words sep text := by
  rw [words, List.splitOnP_cons_eq_if_modifyHead, if_pos ha, List.filter_cons_of_neg (by simp)]
  rfl

/-- Separators in front make no difference. -/
theorem words_dropWhile (text : List α) : words sep (text.dropWhile sep) = words sep text := by
  induction text with
  | nil => rfl
  | cons a text ih =>
    by_cases ha : sep a = true
    · rw [List.dropWhile_cons_of_pos ha, ih, words_cons_sep ha]
    · rw [List.dropWhile_cons_of_neg ha]

/-- A word followed by a separator is the first word. -/
theorem words_append_cons {w : List α} (hw : IsWord sep w) {a : α} (ha : sep a = true)
    (text : List α) : words sep (w ++ a :: text) = w :: words sep text := by
  rw [words, List.splitOnP_append_cons_of_forall_mem hw.2 a ha, List.filter_cons_of_pos]
  · rfl
  · simpa using hw.1

/-- A word alone. -/
theorem words_singleton {w : List α} (hw : IsWord sep w) : words sep w = [w] := by
  rw [words, List.splitOnP_eq_singleton hw.2, List.filter_cons_of_pos]
  · rfl
  · simpa using hw.1

/-- A text begins with a separator, or with a word. -/
theorem isWord_takeWhile {a : α} (ha : sep a = false) (rest : List α) :
    IsWord sep ((a :: rest).takeWhile fun b => !sep b) := by
  refine ⟨?_, fun b hb => ?_⟩
  · rw [List.takeWhile_cons_of_pos (by simpa using ha)]
    exact List.cons_ne_nil _ _
  · have hall := List.all_eq_true.mp (List.all_takeWhile (p := fun b => !sep b)) b hb
    simpa using hall

/-- A text that begins with a word consists of it and the other words. -/
theorem words_of_isWord {text : List α} (hw : IsWord sep (text.takeWhile fun b => !sep b)) :
    words sep text =
      text.takeWhile (fun b => !sep b) :: words sep (text.dropWhile fun b => !sep b) := by
  have hsplit := List.takeWhile_append_dropWhile (p := fun b => !sep b) (l := text)
  cases hafter : text.dropWhile fun b => !sep b with
  | nil =>
    rw [hafter, List.append_nil] at hsplit
    rw [hsplit] at hw ⊢
    exact words_singleton hw
  | cons a rest =>
    have ha : sep a = true := by
      have hhead := List.head_dropWhile_not (fun b => !sep b) (l := text) (by simp [hafter])
      simpa [hafter] using hhead
    rw [words_cons_sep ha, ← words_append_cons hw ha, ← hafter, hsplit]

/-- Reading the first word takes the head off the words. -/
theorem words_eq (text : List α) :
    firstWord sep text = (words sep text).headD [] ∧
      words sep (afterWord sep text) = (words sep text).tail := by
  rw [← words_dropWhile text, firstWord, afterWord]
  cases hrest : text.dropWhile sep with
  | nil => exact ⟨rfl, rfl⟩
  | cons a rest =>
    have ha : sep a = false := by
      have hhead := List.head_dropWhile_not sep (l := text) (by simp [hrest])
      simpa [hrest] using hhead
    rw [words_of_isWord (isWord_takeWhile ha rest)]
    exact ⟨rfl, rfl⟩

/-- What follows the first word is shorter than the text. -/
theorem length_afterWord_lt {text : List α} (h : afterWord sep text ≠ []) :
    (afterWord sep text).length < text.length := by
  have hskip := (List.dropWhile_suffix sep (l := text)).length_le
  unfold afterWord at h ⊢
  cases hrest : text.dropWhile sep with
  | nil =>
    rw [hrest] at h
    exact absurd rfl h
  | cons a rest =>
    have ha : sep a = false := by
      have hhead := List.head_dropWhile_not sep (l := text) (by simp [hrest])
      simpa [hrest] using hhead
    have hdrop := (List.dropWhile_suffix (fun b => !sep b) (l := rest)).length_le
    rw [hrest, List.length_cons] at hskip
    rw [List.dropWhile_cons_of_pos (by simpa using ha)]
    omega

/-- A text of words, each with a separator behind it, has just these words. -/
theorem words_flatMap {ws : List (List α)} (hws : ∀ w ∈ ws, IsWord sep w) {a : α}
    (ha : sep a = true) (text : List α) :
    words sep (ws.flatMap (fun w => w ++ [a]) ++ text) = ws ++ words sep text := by
  induction ws with
  | nil => rfl
  | cons w ws ih =>
    rw [List.forall_mem_cons] at hws
    rw [List.flatMap_cons, List.append_assoc, List.append_assoc, List.singleton_append,
      words_append_cons hws.1 ha, ih hws.2, List.cons_append]

end CapsuleDB.Words
