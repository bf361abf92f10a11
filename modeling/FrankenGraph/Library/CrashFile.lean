import Mathlib

/-!
# Files that survive a crash in part

A file is what has been synced and the changes since, oldest first. A crash keeps the synced content
and some of the changes: the first few, and of the next one, if it is an append, some of its first
elements.

Results:
* `File.EveryCut.append`, `File.EveryCut.truncate`, `File.EveryCut.sync`: what every crash leaves of
  a file, after each operation
* `File.EveryCut.content`: the current content is one of the possible remains
-/

namespace FrankenGraph

variable {α : Type}

/-- A change that is not synced. -/
inductive Change (α : Type)
  | append (data : List α)
  | truncate (length : ℕ)
deriving DecidableEq

def Change.apply : Change α → List α → List α
  | .append data, content => content ++ data
  | .truncate length, content => content.take length

/-- The synced content of a file and the changes made to it since. -/
structure File (α : Type) where
  synced : List α
  changes : List (Change α)
deriving DecidableEq

/-- How much a crash keeps: whole changes, and a beginning of the next one. -/
structure Cut where
  changes : ℕ
  data : ℕ
deriving DecidableEq

namespace File

def empty : File α := ⟨[], []⟩

/-- A content with nothing left to sync. -/
def stable (content : List α) : File α := ⟨content, []⟩

/-- What a reader sees. -/
def content (self : File α) : List α :=
  self.changes.foldl (fun content change => change.apply content) self.synced

def append (self : File α) (data : List α) : File α :=
  { self with changes := self.changes ++ [.append data] }

def truncate (self : File α) (length : ℕ) : File α :=
  { self with changes := self.changes ++ [.truncate length] }

def sync (self : File α) : File α := stable self.content

/-- The content after a crash. -/
def survive (self : File α) (cut : Cut) : List α :=
  let kept := (self.changes.take cut.changes).foldl (fun content change => change.apply content)
    self.synced
  match self.changes.drop cut.changes with
  | .append data :: _ => kept ++ data.take cut.data
  | _ => kept

@[simp]
theorem content_stable (content : List α) : (stable content).content = content := rfl

@[simp]
theorem content_append (self : File α) (data : List α) :
    (self.append data).content = self.content ++ data := by
  simp [content, append, Change.apply]

@[simp]
theorem content_truncate (self : File α) (length : ℕ) :
    (self.truncate length).content = self.content.take length := by
  simp [content, truncate, Change.apply]

@[simp]
theorem content_sync (self : File α) : self.sync.content = self.content := rfl

@[simp]
theorem survive_stable (content : List α) (cut : Cut) : (stable content).survive cut = content := by
  simp [survive, stable]

/-- Whatever a crash keeps satisfies `P`. -/
def EveryCut (P : List α → Prop) (self : File α) : Prop := ∀ cut, P (self.survive cut)

variable {P : List α → Prop} {self : File α}

theorem EveryCut.content (h : self.EveryCut P) : P self.content := by
  have hall := h ⟨self.changes.length, 0⟩
  simpa [survive, File.content] using hall

theorem EveryCut.stable {P : List α → Prop} {content : List α} (h : P content) :
    (stable content).EveryCut P := by
  intro cut
  rw [survive_stable]
  exact h

theorem EveryCut.sync (h : P self.content) : self.sync.EveryCut P :=
  .stable h

/-- A crash before the last change leaves what it would have left without that change. -/
theorem survive_concat (synced : List α) (changes : List (Change α)) (change : Change α)
    (cut : Cut) :
    (⟨synced, changes ++ [change]⟩ : File α).survive cut =
      if cut.changes < changes.length then (⟨synced, changes⟩ : File α).survive cut
      else if cut.changes = changes.length then
        match change with
        | .append data => (⟨synced, changes⟩ : File α).content ++ data.take cut.data
        | .truncate _ => (⟨synced, changes⟩ : File α).content
      else change.apply (⟨synced, changes⟩ : File α).content := by
  unfold survive
  by_cases hlt : cut.changes < changes.length
  · rw [if_pos hlt, List.take_append_of_le_length (Nat.le_of_lt hlt), List.drop_append_of_le_length (Nat.le_of_lt hlt)]
    have hne : changes.drop cut.changes ≠ [] := by
      intro hnil
      have := List.drop_eq_nil_iff.mp hnil
      omega
    obtain ⟨head, tail, hdrop⟩ := List.exists_cons_of_ne_nil hne
    rw [hdrop]
    cases head <;> rfl
  rw [if_neg hlt]
  by_cases heq : cut.changes = changes.length
  · rw [if_pos heq, heq]
    simp only [List.take_left, List.drop_left]
    cases change <;> rfl
  · rw [if_neg heq]
    have hlong : (changes ++ [change]).length ≤ cut.changes := by
      simp only [List.length_append, List.length_singleton]
      omega
    rw [List.take_of_length_le hlong, List.drop_eq_nil_of_le hlong]
    simp [content]

theorem EveryCut.append {data : List α} (h : self.EveryCut P)
    (hdata : ∀ kept, P (self.content ++ data.take kept)) : (self.append data).EveryCut P := by
  intro cut
  rw [File.append, survive_concat]
  by_cases hlt : cut.changes < self.changes.length
  · rw [if_pos hlt]
    exact h cut
  · rw [if_neg hlt]
    by_cases heq : cut.changes = self.changes.length
    · rw [if_pos heq]
      exact hdata cut.data
    · rw [if_neg heq]
      have hall := hdata data.length
      rw [List.take_length] at hall
      exact hall

theorem EveryCut.truncate {length : ℕ} (h : self.EveryCut P)
    (hshort : P (self.content.take length)) : (self.truncate length).EveryCut P := by
  intro cut
  rw [File.truncate, survive_concat]
  by_cases hlt : cut.changes < self.changes.length
  · rw [if_pos hlt]
    exact h cut
  · rw [if_neg hlt]
    by_cases heq : cut.changes = self.changes.length
    · rw [if_pos heq]
      exact h.content
    · rw [if_neg heq]
      exact hshort

end File

end FrankenGraph
