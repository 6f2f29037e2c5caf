import Solids.Export
import Solids.Proofs.PositionTable
/-!
# Solids.Proofs.ObjText

**Reading OBJ files.** A file is read line by line, and a line word by word. The numbers of a
position are read by a function that is not fixed here, and the numbers of a face are natural
numbers.

Main definitions:

* `Obj.Line` — what a line says;
* `Obj.read?` — the lines of a file.

Main statement: `Obj.read?_textOfLines` — reading a file that was written.
-/

namespace Solids

/-! ### Lines and words -/

theorem intercalate_concat_nil {α : Type} (x : α) (ls : List (List α)) :
    [x].intercalate (ls ++ [[]]) = ls.flatMap (· ++ [x]) := by
  induction ls with
  | nil => rfl
  | cons l ls ih =>
    rw [List.flatMap_cons, ← ih, List.cons_append, List.intercalate_cons_of_ne_nil (by simp)]

/-- Text with a break after every line falls into these lines. -/
theorem splitOn_flatMap {α : Type} [BEq α] [LawfulBEq α] {x : α} {ls : List (List α)}
    (h : ∀ l ∈ ls, x ∉ l) : ((ls.flatMap (· ++ [x])).splitOn x).dropLast = ls := by
  have hlines : ∀ l ∈ ls ++ [[]], x ∉ l := by
    rw [List.forall_mem_append]
    exact ⟨h, by simp⟩
  rw [← intercalate_concat_nil, List.splitOn_intercalate x hlines (by simp), List.dropLast_concat]

/-- The blanks may stand in front of the words as well as between them. -/
theorem cons_intercalate {α : Type} (x : α) {ls : List (List α)} (h : ls ≠ []) :
    x :: [x].intercalate ls = ls.flatMap (x :: ·) := by
  induction ls with
  | nil => exact absurd rfl h
  | cons l ls ih =>
    rcases eq_or_ne ls [] with rfl | hne
    · simp
    · rw [List.intercalate_cons_of_ne_nil hne, List.flatMap_cons, ← ih hne, List.append_assoc]
      rfl

/-- The text of some lines has a break after every line. -/
theorem toList_textOfLines (lines : List String) :
    (Content.textOfLines lines).toList = (lines.map String.toList).flatMap (· ++ ['\n']) := by
  rw [Content.textOfLines, String.toList_join, List.flatMap_map, List.flatMap_map]
  simp

theorem not_mem_intercalate {α : Type} {x y : α} {ls : List (List α)} (hne : y ≠ x)
    (h : ∀ l ∈ ls, y ∉ l) : y ∉ [x].intercalate ls := by
  induction ls with
  | nil => exact List.not_mem_nil
  | cons l ls ih =>
    rw [List.forall_mem_cons] at h
    rcases eq_or_ne ls [] with rfl | hls
    · simpa using h.1
    · rw [List.intercalate_cons_of_ne_nil hls]
      simp [h.1, hne, ih h.2]

namespace Obj

/-- What a line of a file says, with numbers of some kind for coordinates. -/
inductive Line (N : Type) where
  /-- A remark. -/
  | comment (text : String)
  /-- The name of the object. -/
  | object (name : String)
  /-- A position. -/
  | position (x y z : N)
  /-- A face, by the numbers of its corners' positions. -/
  | face (numbers : List ℕ)

/-- The words of a line. -/
def words (l : List Char) : List String := (l.splitOn ' ').map String.ofList

section Reader

variable {N : Type} (number? : String → Option N)

/-- Reads a line. -/
def readLine? : List Char → Option (Line N)
  | '#' :: ' ' :: rest => some (.comment (String.ofList rest))
  | 'o' :: ' ' :: rest => some (.object (String.ofList rest))
  | 'v' :: ' ' :: rest =>
    match (words rest).mapM number? with
    | some [x, y, z] => some (.position x y z)
    | _ => none
  | 'f' :: ' ' :: rest => ((words rest).mapM String.toNat?).map .face
  | _ => none

/-- Reads a file, in which every line ends with a line break. -/
def read? (text : String) : Option (List (Line N)) :=
  (text.toList.splitOn '\n').dropLast.mapM (readLine? number?)

end Reader

/-! ### The text of numbers -/

/-- A text without blanks and line breaks. -/
def IsWord (s : String) : Prop := ∀ c ∈ s.toList, c ≠ ' ' ∧ c ≠ '\n'

instance (s : String) : Decidable (IsWord s) := List.decidableBAll _ _

theorem IsWord.append {s t : String} (hs : IsWord s) (ht : IsWord t) : IsWord (s ++ t) := by
  intro c hc
  rw [String.toList_append, List.mem_append] at hc
  exact hc.elim (hs c) (ht c)

theorem isWord_ofList {l : List Char} (h : ∀ c ∈ l, c.isDigit = true) :
    IsWord (String.ofList l) := by
  intro c hc
  rw [String.toList_ofList] at hc
  have hdigit := h c hc
  constructor <;> intro heq <;> rw [heq] at hdigit <;> exact absurd hdigit (by decide)

theorem isDigit_of_mem_toDigits {n : ℕ} : ∀ c ∈ Nat.toDigits 10 n, c.isDigit = true := fun _ =>
  Nat.isDigit_of_mem_toDigits (by decide) (by decide)

theorem isWord_toString (n : ℕ) : IsWord (toString n) := by
  rw [Nat.toString_eq_ofList_toDigits]
  exact isWord_ofList isDigit_of_mem_toDigits

theorem isWord_positional (d : Decimal) : IsWord (d.positional false) := by
  have hchars : ∀ c ∈ d.chars, c.isDigit = true := isDigit_of_mem_toDigits
  have hzeros : ∀ n, ∀ c ∈ List.replicate n '0', c.isDigit = true := by
    intro n c hc
    rw [List.eq_of_mem_replicate hc]
    rfl
  have hzero : IsWord "0." := by decide
  have hpoint : IsWord "." := by decide
  have hend : IsWord (if false then ".0" else "") := by decide
  rw [Decimal.positional]
  by_cases hsmall : d.leadingExponent + 1 ≤ 0
  · rw [if_pos hsmall]
    exact hzero.append (isWord_ofList (List.forall_mem_append.mpr ⟨hzeros _, hchars⟩))
  by_cases hlarge : d.chars.length ≤ (d.leadingExponent + 1).toNat
  · rw [if_neg hsmall, if_pos hlarge]
    exact (isWord_ofList (List.forall_mem_append.mpr ⟨hchars, hzeros _⟩)).append hend
  · have htake : IsWord (String.ofList (d.chars.take (d.leadingExponent + 1).toNat)) :=
      isWord_ofList fun c hc => hchars c (List.mem_of_mem_take hc)
    have hdrop : IsWord (String.ofList (d.chars.drop (d.leadingExponent + 1).toNat)) :=
      isWord_ofList fun c hc => hchars c (List.mem_of_mem_drop hc)
    rw [if_neg hsmall, if_neg hlarge]
    exact (htake.append hpoint).append hdrop

/-- A number is written as one word. -/
theorem isWord_text (r : Reading) : IsWord (Layout.plain.text r) := by
  have hsign : ∀ negative, IsWord (signText negative) := by decide
  cases r with
  | nan negative => exact (by decide : IsWord "NaN")
  | infinite negative => exact (hsign negative).append (by decide)
  | finite negative m => exact (hsign negative).append (isWord_positional _)

/-! ### Reading what was written -/

/-- What a file says. -/
def contents {N : Type} (value : Double → N) (name : String) (positions : List (Vec3 Double))
    (faces : List (List ℕ)) : List (Line N) :=
  [.comment "Wavefront OBJ exported by csg-recipe",
    .comment (toString positions.length ++ " vertices, " ++ toString faces.length ++ " faces"),
    .object name]
  ++ positions.map (fun p => .position (value p.x) (value p.y) (value p.z)) ++ faces.map .face

variable {N : Type} {number? : String → Option N} {value : Double → N} {name : String}
  {m : Mesh Double}

theorem words_intercalate {ls : List String} (hne : ls ≠ []) (h : ∀ l ∈ ls, IsWord l) :
    words ([' '].intercalate (ls.map String.toList)) = ls := by
  rw [words, List.splitOn_intercalate, List.map_map]
  · simp [Function.comp_def]
  · intro l hl
    obtain ⟨s, hs, rfl⟩ := List.mem_map.mp hl
    exact fun hc => (h s hs ' ' hc).1 rfl
  · simpa using hne

theorem mapM_map {α β γ : Type} {f : α → γ} {g : γ → Option β} {h : α → β} {l : List α}
    (hg : ∀ a ∈ l, g (f a) = some (h a)) : (l.map f).mapM g = some (l.map h) := by
  induction l with
  | nil => rfl
  | cons a l ih =>
    rw [List.forall_mem_cons] at hg
    simp [hg.1, ih hg.2]

theorem readLine?_comment (number? : String → Option N) (text : String) :
    readLine? number? ("# " ++ text).toList = some (.comment text) := by
  rw [String.toList_append]
  exact congrArg (fun s => some (Line.comment s)) String.ofList_toList

theorem readLine?_object (number? : String → Option N) (name : String) :
    readLine? number? ("o " ++ name).toList = some (.object name) := by
  rw [String.toList_append]
  exact congrArg (fun s => some (Line.object s)) String.ofList_toList

theorem toList_positionLine (p : Vec3 Double) : (positionLine p).toList = 'v' :: ' ' ::
    [' '].intercalate ((p.toList.map fun x => Layout.plain.text x.reading).map String.toList) := by
  rw [positionLine, String.toList_append, String.toList_intercalate]
  rfl

theorem toList_faceLine {face : List ℕ} (h : face ≠ []) : (faceLine face).toList
    = 'f' :: ' ' :: [' '].intercalate ((face.map toString).map String.toList) := by
  have hblank : ∀ s : String, (" " ++ s).toList = ' ' :: s.toList := fun s => by
    rw [String.toList_append]
    rfl
  rw [cons_intercalate ' ' (by simpa using h), faceLine, String.toList_append, String.toList_join]
  simp [List.flatMap_map, hblank]

theorem isWord_of_mem_texts {l : List Double} :
    ∀ s ∈ l.map fun x => Layout.plain.text x.reading, IsWord s := by
  intro s hs
  obtain ⟨x, -, rfl⟩ := List.mem_map.mp hs
  exact isWord_text x.reading

theorem isWord_of_mem_toString {l : List ℕ} : ∀ s ∈ l.map toString, IsWord s := by
  intro s hs
  obtain ⟨n, -, rfl⟩ := List.mem_map.mp hs
  exact isWord_toString n

theorem readLine?_positionLine {p : Vec3 Double}
    (h : ∀ x ∈ p.toList, number? (Layout.plain.text x.reading) = some (value x)) :
    readLine? number? (positionLine p).toList
      = some (.position (value p.x) (value p.y) (value p.z)) := by
  rw [toList_positionLine]
  show (match (words _).mapM number? with
    | some [x, y, z] => some (Line.position x y z)
    | _ => none) = _
  rw [words_intercalate (by simp [Vec3.toList]) isWord_of_mem_texts, mapM_map h]
  rfl

theorem readLine?_faceLine {face : List ℕ} (h : face ≠ []) :
    readLine? number? (faceLine face).toList = some (.face face) := by
  have hnumbers : ∀ n ∈ face, (toString n).toNat? = some (id n) := fun n _ => Nat.toNat?_repr n
  rw [toList_faceLine h]
  show ((words _).mapM String.toNat?).map Line.face = _
  rw [words_intercalate (by simpa using h) isWord_of_mem_toString, mapM_map hnumbers, List.map_id]
  rfl

/-! ### The whole file -/

theorem not_mem_append {s t : String} {c : Char} (hs : c ∉ s.toList) (ht : c ∉ t.toList) :
    c ∉ (s ++ t).toList := by
  rw [String.toList_append, List.mem_append]
  exact not_or.mpr ⟨hs, ht⟩

theorem not_mem_words {c : Char} (hc : c ≠ '\n') {ls : List String} (h : ∀ l ∈ ls, IsWord l) :
    '\n' ∉ c :: ' ' :: [' '].intercalate (ls.map String.toList) := by
  have hwords : '\n' ∉ [' '].intercalate (ls.map String.toList) := by
    refine not_mem_intercalate (by decide) fun l hl hmem => ?_
    obtain ⟨s, hs, rfl⟩ := List.mem_map.mp hl
    exact (h s hs _ hmem).2 rfl
  simp [hc.symm, hwords]

/-- No line of the file has a line break in it. -/
theorem not_mem_of_mem_lines (hname : '\n' ∉ name.toList)
    (hfaces : ∀ face ∈ (faces m).2, face ≠ []) : ∀ l ∈ lines name m, '\n' ∉ l.toList := by
  have hnumber : ∀ n : ℕ, '\n' ∉ (toString n).toList := fun n hmem =>
    (isWord_toString n _ hmem).2 rfl
  simp only [lines, List.forall_mem_append, List.forall_mem_cons, List.forall_mem_map]
  refine ⟨⟨⟨by decide, ?_, ?_, by simp⟩, fun p _ => ?_⟩, fun face hface => ?_⟩
  · exact not_mem_append (not_mem_append (not_mem_append (not_mem_append (by decide) (hnumber _))
      (by decide)) (hnumber _)) (by decide)
  · exact not_mem_append (by decide) hname
  · rw [toList_positionLine]
    exact not_mem_words (by decide) isWord_of_mem_texts
  · rw [toList_faceLine (hfaces face hface)]
    exact not_mem_words (by decide) isWord_of_mem_toString

/-- Every face has a corner. -/
theorem ne_nil_of_mem_faces : ∀ face ∈ (faces m).2, face ≠ [] := by
  obtain ⟨-, -, hfaces⟩ := faces_spec m
  rw [hfaces, List.forall_mem_map]
  intro outline houtline
  have hthree := three_le_of_mem_outlines outline houtline
  refine List.ne_nil_of_length_pos ?_
  rw [numbered, List.length_map]
  omega

/-- Reading a file that was written. -/
theorem read?_textOfLines (number? : String → Option N) (value : Double → N)
    (hname : '\n' ∉ name.toList)
    (h : ∀ p ∈ (faces m).1, ∀ x ∈ p.toList,
      number? (Layout.plain.text x.reading) = some (value x)) :
    read? number? (Content.textOfLines (lines name m))
      = some (contents value name (faces m).1 (faces m).2) := by
  have hbreaks : ∀ l ∈ (lines name m).map String.toList, '\n' ∉ l := by
    simpa using not_mem_of_mem_lines hname ne_nil_of_mem_faces
  have hcount := readLine?_comment number?
    (toString (faces m).1.length ++ " vertices, " ++ toString (faces m).2.length ++ " faces")
  simp only [← String.append_assoc] at hcount
  have hpositions : ((faces m).1.map fun p => (positionLine p).toList).mapM (readLine? number?)
      = some ((faces m).1.map fun p => .position (value p.x) (value p.y) (value p.z)) :=
    mapM_map fun p hp => readLine?_positionLine (h p hp)
  have hfaces : ((faces m).2.map fun face => (faceLine face).toList).mapM (readLine? number?)
      = some ((faces m).2.map .face) :=
    mapM_map fun face hface => readLine?_faceLine (ne_nil_of_mem_faces face hface)
  rw [read?, toList_textOfLines, splitOn_flatMap hbreaks]
  simp only [lines, List.map_append, List.map_cons, List.map_nil, List.map_map, Function.comp_def,
    List.mapM_append, List.mapM_cons, hcount, readLine?_object, hpositions, hfaces]
  rfl

end Obj

end Solids
