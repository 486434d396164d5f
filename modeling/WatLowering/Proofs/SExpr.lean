/-!
# Reading text back

WebAssembly text is made of atoms, quoted strings and parenthesised lists.  This file reads such a
text character by character, with the lists that are still open on a stack.  It knows nothing of
what the text means, so that what it finds in a generated text says something about the text.

* `SExpr` — what a text can spell: an atom, a string, or a list.
* `Reader` — what is known in the middle of a text; `Reader.step` takes the next character.
* `SExpr.read` — the tree that a whole text spells, if it spells exactly one.
* `IsToken` — a text that is read as one atom wherever it stands between other things.
* `Reads r s r'` — the text `s` takes the reader from `r` to `r'`.  Texts are put together by
  `Reads.append`; `Spells` is the case of a text that adds complete trees to what is there, and
  `OpensList` that of a text that opens a list and stops somewhere inside it.

Comments and escapes in strings are not read: a semicolon outside of a string and a backslash inside
of one are refused.
-/

namespace WatLowering

/-! ## The reader -/

/-- A tree of atoms and strings. -/
inductive SExpr where
  | atom (text : String)
  | quoted (text : String)
  | list (items : List SExpr)

/-- What a reader is in the middle of. -/
inductive Pending where
  /-- An atom.  As long as nothing of it is there, the reader is between two things. -/
  | word (front : List Char)
  /-- A quoted string. -/
  | quote (front : List Char)

/-- What is known in the middle of a text. -/
structure Reader where
  pending : Pending
  /-- The complete trees of the innermost open list. -/
  done : List SExpr
  /-- Those of the lists around it, innermost first. -/
  outer : List (List SExpr)

namespace Reader

/-- The trees with the atom that ends behind them, if it has begun. -/
def endWord (done : List SExpr) : List Char → List SExpr
  | [] => done
  | c :: front => done ++ [.atom (.ofList (c :: front))]

/-- A reader between two things. -/
def gap (done : List SExpr) (outer : List (List SExpr)) : Reader := ⟨.word [], done, outer⟩

/-- Takes the next character, or refuses it. -/
def step (r : Reader) (c : Char) : Option Reader :=
  match r.pending with
  | .word front =>
      let done := endWord r.done front
      if c.isWhitespace then some (gap done r.outer)
      else if c = '(' then some (gap [] (done :: r.outer))
      else if c = ')' then
        match r.outer with
        | [] => none
        | items :: outer => some (gap (items ++ [.list done]) outer)
      else if c = '"' then some ⟨.quote [], done, r.outer⟩
      else if c = ';' then none
      else some { r with pending := .word (front ++ [c]) }
  | .quote front =>
      if c = '"' then some (gap (r.done ++ [.quoted (.ofList front)]) r.outer)
      else if c = '\\' then none
      else some { r with pending := .quote (front ++ [c]) }

/-- All trees of a text that ends here; nothing may be open. -/
def finish (r : Reader) : Option (List SExpr) :=
  match r.pending, r.outer with
  | .word front, [] => some (endWord r.done front)
  | _, _ => none

end Reader

/-- **The tree that a text spells**, if there is exactly one, and nothing else in the text. -/
def SExpr.read (text : String) : Option SExpr := do
  let r ← text.toList.foldlM Reader.step (.gap [] [])
  match ← r.finish with
  | [tree] => some tree
  | _ => none

/-! ## Texts that are read as they stand -/

/-- Does an atom end in front of the character? -/
def endsWord (c : Char) : Bool := c.isWhitespace || c = '(' || c = ')' || c = '"' || c = ';'

/-- The text has no white space, parenthesis, double quote or semicolon. -/
def Unbroken (s : String) : Prop := ∀ c ∈ s.toList, endsWord c = false

instance (s : String) : Decidable (Unbroken s) :=
  decidable_of_iff ((s.toList.all fun c => !endsWord c) = true) (by simp [Unbroken])

theorem Unbroken.append {s t : String} (hs : Unbroken s) (ht : Unbroken t) : Unbroken (s ++ t) := by
  intro c hc
  rw [String.toList_append, List.mem_append] at hc
  exact hc.elim (hs c) (ht c)

theorem unbroken_repr (n : Nat) : Unbroken n.repr := by
  intro c hc
  rw [Nat.toList_repr] at hc
  have hdigit := Nat.isDigit_of_mem_toDigits (by decide) (by decide) hc
  simp only [endsWord, Char.isWhitespace, Bool.or_eq_false_iff, decide_eq_false_iff_not]
  and_intros <;>
    · rintro rfl
      exact absurd hdigit (by decide)

/-- The text is a token: it is read as one atom. -/
structure IsToken (s : String) : Prop where
  ne_empty : s ≠ ""
  unbroken : Unbroken s

instance (s : String) : Decidable (IsToken s) :=
  decidable_of_iff (s ≠ "" ∧ Unbroken s) ⟨fun h => ⟨h.1, h.2⟩, fun h => ⟨h.ne_empty, h.unbroken⟩⟩

theorem IsToken.append {s t : String} (hs : IsToken s) (ht : Unbroken t) : IsToken (s ++ t) := by
  refine ⟨fun h => hs.ne_empty ?_, hs.unbroken.append ht⟩
  exact (String.append_eq_empty_iff.mp h).1

/-- The text can stand in a string: it has no double quote and no backslash. -/
def QuoteFree (s : String) : Prop := ∀ c ∈ s.toList, c ≠ '"' ∧ c ≠ '\\'

instance (s : String) : Decidable (QuoteFree s) :=
  decidable_of_iff ((s.toList.all fun c => c ≠ '"' && c ≠ '\\') = true) (by simp [QuoteFree])

/-! ## What a text does to a reader -/

/-- The text takes the reader from `r` to `r'`. -/
def Reads (r : Reader) (s : String) (r' : Reader) : Prop := s.toList.foldlM Reader.step r = some r'

/-- Wherever it stands, the text adds the trees to those that are there. -/
def Spells (s : String) (trees : List SExpr) : Prop :=
  ∀ done outer, Reads (.gap done outer) s (.gap (done ++ trees) outer)

/-- The same, but the text may stand behind an atom that has not ended. -/
def SpellsBehind (s : String) (trees : List SExpr) : Prop :=
  ∀ front done outer, ∃ front' done',
    Reads ⟨.word front, done, outer⟩ s ⟨.word front', done', outer⟩ ∧
      Reader.endWord done' front' = Reader.endWord done front ++ trees

/-- Wherever it stands, the text opens a list, reads its first items, and ends within an atom or
behind the last of the items. -/
def OpensList (s : String) (items : List SExpr) (front : List Char) : Prop :=
  ∀ done outer, Reads (.gap done outer) s ⟨.word front, items, done :: outer⟩

section Texts

variable {r r' r'' : Reader} {s t : String} {ss : List String} {done items trees : List SExpr}
  {outer : List (List SExpr)} {front : List Char}

theorem reads_empty : Reads r "" r := rfl

/-- **One text after the other.** -/
theorem Reads.append (hs : Reads r s r') (ht : Reads r' t r'') : Reads r (s ++ t) r'' := by
  rw [Reads, String.toList_append, List.foldlM_append, hs]
  exact ht

theorem Reads.join_cons (hs : Reads r s r') (hss : Reads r' (String.join ss) r'') :
    Reads r (String.join (s :: ss)) r'' := by
  rw [String.join_cons]
  exact hs.append hss

theorem Reads.join_singleton (hs : Reads r s r') : Reads r (String.join [s]) r' :=
  hs.join_cons reads_empty

/-- Characters that do not end an atom continue it. -/
theorem reads_word (h : Unbroken s) :
    Reads ⟨.word front, done, outer⟩ s ⟨.word (front ++ s.toList), done, outer⟩ := by
  rw [Unbroken] at h
  rw [Reads]
  generalize s.toList = cs at h ⊢
  induction cs generalizing front with
  | nil => simp
  | cons c cs ih =>
      rw [List.forall_mem_cons] at h
      have hstep : Reader.step ⟨.word front, done, outer⟩ c
          = some ⟨.word (front ++ [c]), done, outer⟩ := by
        have hc := h.1
        simp only [endsWord, Bool.or_eq_false_iff, decide_eq_false_iff_not] at hc
        simp [Reader.step, hc]
      rw [List.foldlM_cons, hstep, List.append_cons front c cs]
      exact ih h.2

/-- A string that has begun goes on until its double quote. -/
theorem reads_quote (h : QuoteFree s) :
    Reads ⟨.quote front, done, outer⟩ s ⟨.quote (front ++ s.toList), done, outer⟩ := by
  rw [QuoteFree] at h
  rw [Reads]
  generalize s.toList = cs at h ⊢
  induction cs generalizing front with
  | nil => simp
  | cons c cs ih =>
      rw [List.forall_mem_cons] at h
      have hstep : Reader.step ⟨.quote front, done, outer⟩ c
          = some ⟨.quote (front ++ [c]), done, outer⟩ := by
        simp [Reader.step, h.1]
      rw [List.foldlM_cons, hstep, List.append_cons front c cs]
      exact ih h.2

/-- Spaces between two things change nothing. -/
theorem reads_spaces (n : Nat) :
    Reads (.gap done outer) (String.ofList (List.replicate n ' ')) (.gap done outer) := by
  rw [Reads, String.toList_ofList]
  induction n with
  | zero => rfl
  | succ n ih =>
      have hstep : Reader.step (.gap done outer) ' ' = some (.gap done outer) := by
        simp [Reader.step, Reader.gap, Reader.endWord]
      rw [List.replicate_succ, List.foldlM_cons, hstep]
      exact ih

/-- A space ends what was begun, and so does a line end. -/
theorem reads_space :
    Reads ⟨.word front, done, outer⟩ " " (.gap (Reader.endWord done front) outer) := rfl

theorem reads_newline :
    Reads ⟨.word front, done, outer⟩ "\n" (.gap (Reader.endWord done front) outer) := rfl

/-- A closing parenthesis makes a tree of what has been read since the opening one. -/
theorem reads_close : Reads ⟨.word front, items, done :: outer⟩ ")"
    (.gap (done ++ [.list (Reader.endWord items front)]) outer) := rfl

theorem Reader.endWord_toList (h : s ≠ "") : endWord done s.toList = done ++ [.atom s] := by
  cases hs : s.toList with
  | nil => exact absurd (String.toList_eq_nil_iff.mp hs) h
  | cons c cs => rw [endWord, ← hs, String.ofList_toList]

namespace Spells

theorem empty : Spells "" [] := by
  intro done outer
  rw [List.append_nil]
  exact reads_empty

theorem space : Spells " " [] := by
  intro done outer
  rw [List.append_nil]
  rfl

theorem append {more : List SExpr} (hs : Spells s trees) (ht : Spells t more) :
    Spells (s ++ t) (trees ++ more) := by
  intro done outer
  rw [← List.append_assoc]
  exact (hs done outer).append (ht (done ++ trees) outer)

end Spells

namespace OpensList

theorem word (hs : OpensList s items front) (ht : Unbroken t) :
    OpensList (s ++ t) items (front ++ t.toList) :=
  fun done outer => (hs done outer).append (reads_word ht)

theorem space (hs : OpensList s items front) :
    OpensList (s ++ " ") (Reader.endWord items front) [] :=
  fun done outer => (hs done outer).append reads_space

theorem spells (hs : OpensList s items []) (ht : Spells t trees) :
    OpensList (s ++ t) (items ++ trees) [] :=
  fun done outer => (hs done outer).append (ht items (done :: outer))

theorem close (hs : OpensList s items front) :
    Spells (s ++ ")") [.list (Reader.endWord items front)] :=
  fun done outer => (hs done outer).append reads_close

end OpensList

theorem SpellsBehind.empty : SpellsBehind "" [] := by
  intro front done outer
  refine ⟨front, done, reads_empty, ?_⟩
  rw [List.append_nil]

theorem SpellsBehind.append {more : List SExpr} (hs : SpellsBehind s trees)
    (ht : SpellsBehind t more) : SpellsBehind (s ++ t) (trees ++ more) := by
  intro front done outer
  obtain ⟨front₁, done₁, hread₁, hdone₁⟩ := hs front done outer
  obtain ⟨front₂, done₂, hread₂, hdone₂⟩ := ht front₁ done₁ outer
  refine ⟨front₂, done₂, hread₁.append hread₂, ?_⟩
  rw [hdone₂, hdone₁, List.append_assoc]

/-- With a space in front of it, a text can stand behind an atom. -/
theorem Spells.behind (hs : Spells s trees) : SpellsBehind (" " ++ s) trees :=
  fun front done outer =>
    ⟨[], Reader.endWord done front ++ trees, reads_space.append (hs _ outer), rfl⟩

/-- **A text that spells one tree is read as that tree.** -/
theorem Spells.read_eq {tree : SExpr} (hs : Spells s [tree]) : SExpr.read s = some tree := by
  rw [SExpr.read, hs [] []]
  rfl

example : SExpr.read "(a\n (b \"c (d\" ) )" =
    some (.list [.atom "a", .list [.atom "b", .quoted "c (d"]]) := rfl

example : SExpr.read "(a))" = none := rfl

end Texts

end WatLowering
