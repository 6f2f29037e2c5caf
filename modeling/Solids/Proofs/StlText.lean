import Solids.Proofs.ObjText
import Solids.Proofs.SingleRounding
/-!
# Solids.Proofs.StlText

**Reading STL files that are text.** A file is read line by line: a line with the name, blocks of
seven lines for the triangles, and a line with the name once more.

Main definitions:

* `Stl.Numeral` — a number with six decimal places, and `Stl.Numeral.Shows` — which number it shows;
* `Stl.Facet` — what either form of a file says of a triangle;
* `Stl.readText?` — the contents of a file.

Main statement: `Stl.readText?_textOfLines` — reading a file that was written.
-/

namespace Solids.Stl

/-! ### Numbers -/

/-- A number as it stands in a file. -/
inductive Numeral where
  /-- No number. -/
  | nan
  /-- An infinity. -/
  | infinite (negative : Bool)
  /-- Six decimal places, and everything before them. -/
  | decimal (negative : Bool) (millionths : ℕ)
  deriving DecidableEq

namespace Numeral

/-- The numeral for a double. -/
def ofReading : Reading → Numeral
  | .nan _ => .nan
  | .infinite negative => .infinite negative
  | .finite negative m => .decimal negative (m.roundPlaces 6)

/-- A double, and how it is shown to six decimal places. -/
inductive Shows : Reading → Numeral → Prop where
  /-- The sign of a NaN is not shown. -/
  | nan (negative : Bool) : Shows (.nan negative) .nan
  /-- An infinity is shown as one. -/
  | infinite (negative : Bool) : Shows (.infinite negative) (.infinite negative)
  /-- The nearest decimal is shown, with the sign. -/
  | finite (negative : Bool) {m : Magnitude} {millionths : ℕ}
      (h : IsNearest (m.toRat * 10 ^ 6) millionths) :
      Shows (.finite negative m) (.decimal negative millionths)

theorem shows_ofReading (r : Reading) : Shows r (ofReading r) := by
  cases r with
  | nan negative => exact .nan negative
  | infinite negative => exact .infinite negative
  | finite negative m => exact .finite negative (m.isNearest_roundPlaces 6)

/-- Reads a number without its sign. -/
def readUnsigned? (negative : Bool) (l : List Char) : Option Numeral :=
  if l = ['i', 'n', 'f'] then some (.infinite negative)
  else
    match l.splitOn '.' with
    | [whole, places] =>
      if whole ≠ [] ∧ places.length = 6 ∧ (whole ++ places).all Char.isDigit then
        some (.decimal negative (Nat.ofDigitChars 10 (whole ++ places) 0))
      else none
    | _ => none

/-- Reads a number. -/
def read? (word : String) : Option Numeral :=
  match word.toList with
  | ['N', 'a', 'N'] => some .nan
  | '-' :: l => readUnsigned? true l
  | l => readUnsigned? false l

/-- The digits of a number that is padded. -/
theorem padded_spec (width n : ℕ) (hwidth : 0 < width) :
    (∀ c ∈ (padded width n).toList, c.isDigit = true) ∧
      Nat.ofDigitChars 10 (padded width n).toList 0 = n ∧
      width ≤ (padded width n).toList.length ∧
      (n < 10 ^ width → (padded width n).toList.length = width) := by
  have hlength := Nat.length_toDigits_le_iff (b := 10) (n := n) (by decide) hwidth
  rw [padded, String.toList_ofList]
  refine ⟨?_, ?_, ?_, fun hn => ?_⟩
  · intro c hc
    rcases List.mem_append.mp hc with hc | hc
    · rw [List.eq_of_mem_replicate hc]
      rfl
    · exact Obj.isDigit_of_mem_toDigits c hc
  · simp [Nat.ofDigitChars_append]
  · rw [List.length_append, List.length_replicate]
    omega
  · have := hlength.mpr hn
    rw [List.length_append, List.length_replicate]
    omega

theorem readUnsigned?_digits (negative : Bool) {whole places : List Char} (hne : whole ≠ [])
    (hlength : places.length = 6) (hwhole : ∀ c ∈ whole, c.isDigit = true)
    (hplaces : ∀ c ∈ places, c.isDigit = true) :
    readUnsigned? negative (whole ++ '.' :: places)
      = some (.decimal negative (Nat.ofDigitChars 10 (whole ++ places) 0)) := by
  have hpoint : ∀ l : List Char, (∀ c ∈ l, c.isDigit = true) → '.' ∉ l :=
    fun l hl hmem => absurd (hl _ hmem) (by decide)
  have hsplit : (whole ++ '.' :: places).splitOn '.' = [whole, places] := by
    have hlines : ∀ l ∈ [whole, places], '.' ∉ l := by
      simpa using ⟨hpoint whole hwhole, hpoint places hplaces⟩
    simpa [List.intercalate] using List.splitOn_intercalate '.' hlines (by simp)
  have hinf : whole ++ '.' :: places ≠ ['i', 'n', 'f'] := by
    intro heq
    have hmem : '.' ∈ whole ++ '.' :: places := by simp
    rw [heq] at hmem
    exact absurd hmem (by decide)
  rw [readUnsigned?, if_neg hinf, hsplit]
  simp only
  rw [if_pos ⟨hne, hlength, List.all_eq_true.mpr (List.forall_mem_append.mpr ⟨hwhole, hplaces⟩)⟩]

/-- Six places of a finite number are read back. -/
theorem read?_decimal (negative : Bool) {whole places : List Char} (hne : whole ≠ [])
    (hlength : places.length = 6) (hwhole : ∀ c ∈ whole, c.isDigit = true)
    (hplaces : ∀ c ∈ places, c.isDigit = true) :
    read? (String.ofList ((signText negative).toList ++ (whole ++ '.' :: places)))
      = some (.decimal negative (Nat.ofDigitChars 10 (whole ++ places) 0)) := by
  rw [read?, String.toList_ofList]
  cases negative with
  | true => exact readUnsigned?_digits true hne hlength hwhole hplaces
  | false =>
    obtain ⟨digit, rest, rfl⟩ := List.exists_cons_of_ne_nil hne
    have hdigit := hwhole digit (.head rest)
    rw [← readUnsigned?_digits false hne hlength hwhole hplaces]
    show (match digit :: (rest ++ '.' :: places) with
      | ['N', 'a', 'N'] => some Numeral.nan
      | '-' :: l => readUnsigned? true l
      | l => readUnsigned? false l) = _
    split
    · next heq =>
      rw [(List.cons.inj heq).1] at hdigit
      exact absurd hdigit (by decide)
    · next heq =>
      rw [(List.cons.inj heq).1] at hdigit
      exact absurd hdigit (by decide)
    · rfl

/-- **A number that was written is read back.** -/
theorem read?_fixed (r : Reading) : read? (fixed 6 r) = some (ofReading r) := by
  cases r with
  | nan negative =>
    show read? "NaN" = some .nan
    decide
  | infinite negative => cases negative <;> decide
  | finite negative m =>
    obtain ⟨hwhole, hwholeValue, hpos, -⟩ := padded_spec 1 (m.roundPlaces 6 / 10 ^ 6) one_pos
    obtain ⟨hplaces, hplacesValue, -, hlength⟩ :=
      padded_spec 6 (m.roundPlaces 6 % 10 ^ 6) (by decide)
    have hlength := hlength (Nat.mod_lt _ (by decide))
    have htext : fixed 6 (.finite negative m) = String.ofList ((signText negative).toList
        ++ ((padded 1 (m.roundPlaces 6 / 10 ^ 6)).toList
          ++ '.' :: (padded 6 (m.roundPlaces 6 % 10 ^ 6)).toList)) := by
      rw [← String.toList_inj]
      simp [fixed]
    rw [htext, read?_decimal negative (List.ne_nil_of_length_pos hpos) hlength hwhole hplaces,
      Nat.ofDigitChars_append, Nat.ofDigitChars_eq_ofDigitChars_zero, hwholeValue, hplacesValue,
      hlength, Nat.div_add_mod]
    rfl

end Numeral

/-! ### Facets -/

/-- What a file says of a triangle: its normal and the positions of its corners. -/
structure Facet (N : Type) where
  /-- The normal. -/
  normal : Vec3 N
  /-- The first corner. -/
  a : Vec3 N
  /-- The second corner. -/
  b : Vec3 N
  /-- The third corner. -/
  c : Vec3 N

namespace Facet

variable {N M : Type}

/-- What there is to say of a triangle. -/
def ofTriangle (t : Triangle Double) : Facet Double := ⟨t.facetNormal, t.a.pos, t.b.pos, t.c.pos⟩

/-- Every number replaced. -/
def map (f : N → M) (facet : Facet N) : Facet M :=
  ⟨facet.normal.map f, facet.a.map f, facet.b.map f, facet.c.map f⟩

/-- The twelve numbers in order. -/
def toList (facet : Facet N) : List N :=
  facet.normal.toList ++ facet.a.toList ++ facet.b.toList ++ facet.c.toList

/-- Every number is related to the one at its place. -/
def Related (r : N → M → Prop) (f : Facet N) (g : Facet M) : Prop := f.toList.Forall₂ r g.toList

theorem related_map {r : N → M → Prop} {f : N → M} (h : ∀ x, r x (f x)) (facet : Facet N) :
    Related r facet (facet.map f) := by
  show List.Forall₂ r facet.toList (facet.toList.map f)
  rw [List.forall₂_map_right_iff, List.forall₂_same]
  exact fun x _ => h x

end Facet

/-! ### Lines -/

/-- The numeral for a double. -/
def numeral (x : Double) : Numeral := .ofReading x.reading

/-- Reads a line of some words and three numbers. -/
def readVector? (start : List String) (l : List Char) : Option (Vec3 Numeral) :=
  (start.isPrefixOf? (Obj.words l)).bind fun rest =>
    match rest.mapM Numeral.read? with
    | some [x, y, z] => some ⟨x, y, z⟩
    | _ => none

/-- Reads seven lines. -/
def readFacet? (l₁ l₂ l₃ l₄ l₅ l₆ l₇ : List Char) : Option (Facet Numeral) := do
  let normal ← readVector? ["", "", "facet", "normal"] l₁
  let a ← readVector? ["", "", "", "", "", "", "vertex"] l₃
  let b ← readVector? ["", "", "", "", "", "", "vertex"] l₄
  let c ← readVector? ["", "", "", "", "", "", "vertex"] l₅
  if l₂ = "    outer loop".toList ∧ l₆ = "    endloop".toList ∧ l₇ = "  endfacet".toList then
    return ⟨normal, a, b, c⟩
  else none

/-- Reads the name that follows the start of a line. -/
def readName? (start : String) (l : List Char) : Option String :=
  (start.toList.isPrefixOf? l).map String.ofList

/-- Reads blocks of seven lines, and a last line with a name. -/
def readFacets? : List (List Char) → Option (List (Facet Numeral) × String)
  | [last] => (readName? "endsolid " last).map fun name => ([], name)
  | l₁ :: l₂ :: l₃ :: l₄ :: l₅ :: l₆ :: l₇ :: rest => do
    let facet ← readFacet? l₁ l₂ l₃ l₄ l₅ l₆ l₇
    let (facets, name) ← readFacets? rest
    return (facet :: facets, name)
  | _ => none

/-- What a file says. -/
structure TextForm where
  /-- The name in the first line. -/
  name : String
  /-- The triangles. -/
  facets : List (Facet Numeral)
  /-- The name in the last line. -/
  closing : String

/-- Reads a file, in which every line ends with a line break. -/
def readText? (text : String) : Option TextForm :=
  match (text.toList.splitOn '\n').dropLast with
  | first :: rest => do
    let name ← readName? "solid " first
    let (facets, closing) ← readFacets? rest
    return ⟨name, facets, closing⟩
  | [] => none

/-! ### Reading what was written -/

variable {name : String} {m : Mesh Double}

theorem isWord_fixed (r : Reading) : Obj.IsWord (fixed 6 r) := by
  have hsign : ∀ negative, Obj.IsWord (signText negative) := by decide
  have hpadded : ∀ width n, 0 < width → Obj.IsWord (padded width n) := by
    intro width n hwidth
    rw [← String.ofList_toList (s := padded width n)]
    exact Obj.isWord_ofList (Numeral.padded_spec width n hwidth).1
  cases r with
  | nan negative => exact (by decide : Obj.IsWord "NaN")
  | infinite negative => exact (hsign negative).append (by decide)
  | finite negative m =>
    exact (((hsign negative).append (hpadded 1 _ (by decide))).append (by decide)).append
      (hpadded 6 _ (by decide))

/-- A line starts with some words, each with a blank after it. -/
structure Opens (start : String) (ws : List String) : Prop where
  /-- The words make the start of the line. -/
  eq : start = " ".intercalate ws ++ " "
  /-- There are some. -/
  ne_nil : ws ≠ []
  /-- They are words. -/
  isWord : ∀ w ∈ ws, Obj.IsWord w

theorem opens_normal : Opens "  facet normal " ["", "", "facet", "normal"] :=
  ⟨by decide, by simp, by decide⟩

theorem opens_vertex : Opens "      vertex " ["", "", "", "", "", "", "vertex"] :=
  ⟨by decide, by simp, by decide⟩

namespace Opens

variable {start : String} {ws : List String}

/-- The words of a line of some words and three numbers. -/
theorem toList_append (h : Opens start ws) (v : Vec3 Double) : (start ++ vectorText v).toList
    = [' '].intercalate ((ws ++ v.toList.map fun x => fixed 6 x.reading).map String.toList) := by
  have hline := String.intercalate_append_of_ne_nil (s := " ") h.ne_nil
    (by simp [Vec3.toList] : (v.toList.map fun x => fixed 6 x.reading) ≠ [])
  rw [h.eq, vectorText, ← hline, String.toList_intercalate]
  rfl

theorem isWord_append (h : Opens start ws) (v : Vec3 Double) :
    ∀ w ∈ ws ++ v.toList.map fun x => fixed 6 x.reading, Obj.IsWord w := by
  rw [List.forall_mem_append, List.forall_mem_map]
  exact ⟨h.isWord, fun x _ => isWord_fixed x.reading⟩

theorem readVector?_append (h : Opens start ws) (v : Vec3 Double) :
    readVector? ws (start ++ vectorText v).toList = some (v.map numeral) := by
  have hnumbers : (v.toList.map fun x => fixed 6 x.reading).mapM Numeral.read?
      = some (v.toList.map numeral) := Obj.mapM_map fun x _ => Numeral.read?_fixed x.reading
  rw [readVector?, h.toList_append, Obj.words_intercalate (by simp [h.ne_nil]) (h.isWord_append v),
    List.isPrefixOf?_eq_some_iff_append_eq.mpr rfl, Option.bind_some, hnumbers]
  rfl

theorem not_mem_append (h : Opens start ws) (v : Vec3 Double) :
    '\n' ∉ (start ++ vectorText v).toList := by
  rw [h.toList_append]
  refine not_mem_intercalate (by decide) fun l hl hmem => ?_
  obtain ⟨w, hw, rfl⟩ := List.mem_map.mp hl
  exact (h.isWord_append v w hw _ hmem).2 rfl

end Opens

/-- The seven lines for a triangle. -/
theorem readFacets?_facet (t : Triangle Double) {rest : List (List Char)}
    {facets : List (Facet Numeral)} (h : readFacets? rest = some (facets, name)) :
    readFacets? ((facet t).map String.toList ++ rest)
      = some ((Facet.ofTriangle t).map numeral :: facets, name) := by
  show (do
    let facet ← readFacet? _ _ _ _ _ _ _
    let (facets, name) ← readFacets? rest
    return (facet :: facets, name)) = _
  rw [readFacet?, opens_normal.readVector?_append, opens_vertex.readVector?_append,
    opens_vertex.readVector?_append, opens_vertex.readVector?_append, h]
  rfl

theorem readName?_append (start name : String) :
    readName? start (start ++ name).toList = some name := by
  rw [readName?, List.isPrefixOf?_eq_some_iff_append_eq.mpr (String.toList_append).symm]
  exact congrArg some String.ofList_toList

/-- All the blocks, and the last line. -/
theorem readFacets?_facets (ts : List (Triangle Double)) (name : String) :
    readFacets? ((ts.flatMap facet ++ ["endsolid " ++ name]).map String.toList)
      = some (ts.map fun t => (Facet.ofTriangle t).map numeral, name) := by
  induction ts with
  | nil =>
    show (readName? "endsolid " ("endsolid " ++ name).toList).map _ = _
    rw [readName?_append]
    rfl
  | cons t ts ih =>
    rw [List.flatMap_cons, List.append_assoc, List.map_append]
    exact readFacets?_facet t ih

/-- No line of the file has a line break in it. -/
theorem not_mem_of_mem_lines (hname : '\n' ∉ name.toList) :
    ∀ l ∈ lines name m, '\n' ∉ l.toList := by
  have hvertex := opens_vertex.not_mem_append
  have hfacet : ∀ t : Triangle Double, ∀ l ∈ facet t, '\n' ∉ l.toList := by
    intro t
    simp only [facet, Triangle.toList, List.map_cons, List.map_nil, List.cons_append,
      List.nil_append, List.forall_mem_cons]
    exact ⟨opens_normal.not_mem_append _, by decide, hvertex _, hvertex _, hvertex _, by decide,
      by decide, List.forall_mem_nil _⟩
  simp only [lines, List.forall_mem_cons, List.forall_mem_append, List.mem_flatMap]
  refine ⟨Obj.not_mem_append (by decide) hname, ?_, Obj.not_mem_append (by decide) hname,
    List.forall_mem_nil _⟩
  intro l hl
  obtain ⟨t, -, hl⟩ := hl
  exact hfacet t l hl

theorem length_lines (name : String) (m : Mesh Double) :
    (lines name m).length = 2 + 7 * m.triangles.length := by
  have hblocks : ∀ ts : List (Triangle Double), (ts.flatMap facet).length = 7 * ts.length := by
    intro ts
    induction ts with
    | nil => rfl
    | cons t ts ih =>
      have hseven : (facet t).length = 7 := rfl
      rw [List.flatMap_cons, List.length_append, ih, hseven, List.length_cons]
      omega
  rw [lines, List.length_cons, List.length_append, hblocks]
  show 7 * m.triangles.length + 1 + 1 = _
  omega

/-- **Reading a file that was written.** -/
theorem readText?_textOfLines (hname : '\n' ∉ name.toList) (m : Mesh Double) :
    readText? (Content.textOfLines (lines name m))
      = some ⟨name, m.triangles.map fun t => (Facet.ofTriangle t).map numeral, name⟩ := by
  have hbreaks : ∀ l ∈ (lines name m).map String.toList, '\n' ∉ l := by
    simpa using not_mem_of_mem_lines hname
  rw [readText?, toList_textOfLines, splitOn_flatMap hbreaks, lines, List.map_cons]
  show (do
    let name ← readName? "solid " ("solid " ++ name).toList
    let (facets, closing) ← readFacets? _
    return TextForm.mk name facets closing) = _
  rw [readName?_append, readFacets?_facets]
  rfl

end Solids.Stl
