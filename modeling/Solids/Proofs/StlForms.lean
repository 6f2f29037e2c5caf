import Solids.Proofs.StlText
/-!
# Solids.Proofs.StlForms

**Both forms of an STL file hold the same triangles.** The binary form is read byte by byte; what
it and the text say of a triangle are the numbers of the mesh, rounded in two ways.

Main definition: `Stl.readBytes?` — the contents of a binary file.

Main statements:

* `Stl.readBytes?_bytes` — reading a binary file that was written;
* `Stl.both_forms_show_triangles` — triangle by triangle, the text shows six decimal places of what
  the binary form holds in single precision.
-/

namespace Solids.Stl

/-! ### Reading bytes -/

/-- A step of a reader, which takes some of the bytes that are left. -/
abbrev Bytes (α : Type) : Type := StateT (List UInt8) Option α

/-- What a binary file says of a triangle. -/
structure Record where
  /-- The normal and the corners. -/
  facet : Facet Reading
  /-- The two bytes without meaning. -/
  extra : ℕ

namespace Bytes

/-- Takes two bytes, the lower one first. -/
def half : Bytes ℕ
  | b₀ :: b₁ :: rest => some (b₀.toNat + 2 ^ 8 * b₁.toNat, rest)
  | _ => none

/-- Takes four bytes, the lowest one first. -/
def word : Bytes ℕ
  | b₀ :: b₁ :: b₂ :: b₃ :: rest =>
    some (b₀.toNat + 2 ^ 8 * b₁.toNat + 2 ^ 16 * b₂.toNat + 2 ^ 24 * b₃.toNat, rest)
  | _ => none

/-- Takes three numbers in single precision. -/
def vector : Bytes (Vec3 Reading) := do
  let x ← word
  let y ← word
  let z ← word
  return ⟨Single.reading x, Single.reading y, Single.reading z⟩

/-- Takes what there is of a triangle. -/
def record : Bytes Record := do
  let normal ← vector
  let a ← vector
  let b ← vector
  let c ← vector
  let extra ← half
  return ⟨⟨normal, a, b, c⟩, extra⟩

/-- Takes so many triangles. -/
def records : ℕ → Bytes (List Record)
  | 0 => return []
  | n + 1 => do
    let first ← record
    let rest ← records n
    return first :: rest

end Bytes

/-- What a binary file says. -/
structure BinaryForm where
  /-- The bytes in front. -/
  header : List UInt8
  /-- The number of triangles. -/
  count : ℕ
  /-- The triangles. -/
  records : List Record

/-- Reads a binary file. There must be as many triangles as it says, and nothing after them. -/
def readBytes? (bytes : List UInt8) : Option BinaryForm := do
  let (count, rest) ← Bytes.word (bytes.drop 80)
  let (records, rest) ← Bytes.records count rest
  if rest = [] then return ⟨bytes.take 80, count, records⟩ else none

/-! ### Reading what was written -/

/-- The value that a binary file holds for a double. -/
def single (x : Double) : Reading := Single.reading (Single.bits x).toNat

/-- What a binary file says of a triangle. -/
def recordOf (t : Triangle Double) : Record := ⟨(Facet.ofTriangle t).map single, 0⟩

namespace Bytes

variable {α β : Type} {l rest : List UInt8}

/-- A step, and what follows it. -/
theorem bind_eq {x : Bytes α} {a : α} (h : x l = some (a, rest)) (f : α → Bytes β) :
    (x >>= f) l = f a rest := by
  show (x l >>= fun p => f p.1 p.2) = _
  rw [h]
  rfl

theorem toNat_byte (n : UInt32) {s : UInt32} {k : ℕ} (hs : s.toNat = 8 * k) (hk : k < 4) :
    (n >>> s).toUInt8.toNat = n.toNat / 2 ^ (8 * k) % 2 ^ 8 := by
  rw [UInt32.toNat_toUInt8, UInt32.toNat_shiftRight, Nat.shiftRight_eq_div_pow, hs,
    Nat.mod_eq_of_lt (by omega : 8 * k < 32)]

theorem word_littleEndian (n : UInt32) (rest : List UInt8) :
    word (Single.littleEndian n ++ rest) = some (n.toNat, rest) := by
  have hlt : n.toNat < 2 ^ 32 := n.toNat_lt
  have h₀ : n.toUInt8.toNat = n.toNat % 2 ^ 8 := UInt32.toNat_toUInt8 n
  have h₁ := toNat_byte n (s := 8) (k := 1) rfl (by decide)
  have h₂ := toNat_byte n (s := 16) (k := 2) rfl (by decide)
  have h₃ := toNat_byte n (s := 24) (k := 3) rfl (by decide)
  show some (_, rest) = _
  rw [h₀, h₁, h₂, h₃]
  congr 2
  omega

theorem vector_bytes (v : Vec3 Double) (rest : List UInt8) :
    vector (v.toList.flatMap Single.bytes ++ rest) = some (v.map single, rest) := by
  have hbytes : v.toList.flatMap Single.bytes ++ rest = Single.littleEndian (Single.bits v.x)
      ++ (Single.littleEndian (Single.bits v.y)
        ++ (Single.littleEndian (Single.bits v.z) ++ rest)) := by
    simp [Vec3.toList, Single.bytes]
  rw [hbytes, vector, bind_eq (word_littleEndian _ _), bind_eq (word_littleEndian _ _),
    bind_eq (word_littleEndian _ _)]
  rfl

theorem record_facetBytes (t : Triangle Double) (rest : List UInt8) :
    record (facetBytes t ++ rest) = some (recordOf t, rest) := by
  have hbytes : facetBytes t ++ rest = t.facetNormal.toList.flatMap Single.bytes
      ++ (t.a.pos.toList.flatMap Single.bytes ++ (t.b.pos.toList.flatMap Single.bytes
        ++ (t.c.pos.toList.flatMap Single.bytes ++ (0 :: 0 :: rest)))) := by
    simp [facetBytes, Triangle.toList]
  rw [hbytes, record, bind_eq (vector_bytes _ _), bind_eq (vector_bytes _ _),
    bind_eq (vector_bytes _ _), bind_eq (vector_bytes _ _)]
  rfl

theorem records_facetBytes (ts : List (Triangle Double)) (rest : List UInt8) :
    records ts.length (ts.flatMap facetBytes ++ rest) = some (ts.map recordOf, rest) := by
  induction ts with
  | nil => rfl
  | cons t ts ih =>
    rw [List.flatMap_cons, List.append_assoc, List.length_cons, records,
      bind_eq (record_facetBytes t _), bind_eq ih]
    rfl

end Bytes

/-- **Reading a binary file that was written.** -/
theorem readBytes?_bytes {m : Mesh Double} (h : m.triangles.length < 2 ^ 32) :
    readBytes? (bytes m)
      = some ⟨List.replicate 80 0, m.triangles.length, m.triangles.map recordOf⟩ := by
  have hcount : m.triangles.length.toUInt32.toNat = m.triangles.length := Nat.mod_eq_of_lt h
  have hrecords := Bytes.records_facetBytes m.triangles []
  rw [List.append_nil] at hrecords
  rw [readBytes?, bytes, List.append_assoc, List.drop_left' (by simp), List.take_left' (by simp),
    Bytes.word_littleEndian, hcount]
  show (Bytes.records m.triangles.length _).bind _ = _
  rw [hrecords]
  rfl

/-! ### Both forms -/

/-- The number of triangles of a mesh, polygon by polygon. -/
theorem length_triangles (m : Mesh Double) :
    m.triangles.length = (m.polygons.map fun q => q.vertices.length - 2).sum := by
  rw [Mesh.triangles, List.length_flatMap]
  exact congrArg List.sum (List.map_congr_left fun q _ => q.triangles_length)

/-- **Both forms hold the same triangles**, whatever the mesh is like, if the number of triangles
fits into 32 bits and the name has no line break in it. The text has a line with the name, seven
lines for every triangle, and a line with the name; the binary form has 80 bytes without meaning,
the number of triangles, and 50 bytes for every triangle. What they say of a triangle is its facet
normal and the positions of its corners, with six decimal places and in single precision. -/
theorem both_forms_show_triangles (m : Mesh Double) (name : String) (hname : '\n' ∉ name.toList)
    (hcount : (m.polygons.map fun q => q.vertices.length - 2).sum < 2 ^ 32) :
    ∃ (count : ℕ) (facets : List (Facet Numeral)) (records : List (Facet Reading)),
      count = (m.polygons.map fun q => q.vertices.length - 2).sum ∧
      readText? (Content.textOfLines (lines name m)) = some ⟨name, facets, name⟩ ∧
      (lines name m).length = 2 + 7 * count ∧
      readBytes? (bytes m)
        = some ⟨List.replicate 80 0, count, records.map fun facet => ⟨facet, 0⟩⟩ ∧
      (bytes m).length = 84 + 50 * count ∧
      m.triangles.length = count ∧ facets.length = count ∧ records.length = count ∧
      ∀ (k : ℕ) (t : Triangle Double), m.triangles[k]? = some t → ∃ facet record,
        facets[k]? = some facet ∧ records[k]? = some record ∧
        (Facet.ofTriangle t).Related (fun (x : Double) n => Numeral.Shows x.reading n) facet ∧
        (Facet.ofTriangle t).Related (fun (x : Double) r => Single.Rounds x.reading r) record := by
  rw [← length_triangles] at hcount ⊢
  refine ⟨m.triangles.length, m.triangles.map fun t => (Facet.ofTriangle t).map numeral,
    m.triangles.map fun t => (Facet.ofTriangle t).map single, rfl, readText?_textOfLines hname m,
    length_lines name m, ?_, length_bytes m, rfl, List.length_map _, List.length_map _, ?_⟩
  · rw [readBytes?_bytes hcount, List.map_map]
    rfl
  · intro k t ht
    refine ⟨(Facet.ofTriangle t).map numeral, (Facet.ofTriangle t).map single, ?_, ?_, ?_, ?_⟩
    · rw [List.getElem?_map, ht, Option.map_some]
    · rw [List.getElem?_map, ht, Option.map_some]
    · exact Facet.related_map (fun x : Double => Numeral.shows_ofReading x.reading) _
    · exact Facet.related_map Single.rounds_bits _

/-- A square, a polygon of two corners, and a triangle without area. -/
def scraps : Mesh Double :=
  let vertex (x y : Double) : Vertex Double := ⟨⟨x, y, 0⟩, Vec3.unitZ⟩
  .ofPolygons [.ofVertices [vertex 0 0, vertex 1 0, vertex 1 1, vertex 0 1],
    .ofVertices [vertex 0 0, vertex 1 0],
    .ofVertices [vertex 0 0, vertex 1 0, vertex Scalar.half 0]]

/-- The square makes two triangles, the polygon of two corners none. -/
theorem both_forms_show_triangles_scraps :
    ∃ (facets : List (Facet Numeral)) (records : List (Facet Reading)),
    readText? (Content.textOfLines (lines "two scraps" scraps))
        = some ⟨"two scraps", facets, "two scraps"⟩ ∧
      readBytes? (bytes scraps)
        = some ⟨List.replicate 80 0, 3, records.map fun facet => ⟨facet, 0⟩⟩ ∧
      (lines "two scraps" scraps).length = 23 ∧ (bytes scraps).length = 234 ∧
      ∃ (degenerate : Triangle Double) (facet : Facet Numeral) (record : Facet Reading),
        scraps.triangles[2]? = some degenerate ∧ facets[2]? = some facet ∧
        records[2]? = some record ∧
        (Facet.ofTriangle degenerate).Related (fun (x : Double) n => Numeral.Shows x.reading n)
          facet ∧
        (Facet.ofTriangle degenerate).Related (fun (x : Double) r => Single.Rounds x.reading r)
          record := by
  obtain ⟨count, facets, records, hcount, htext, hlines, hbinary, hbytes, -, -, -, htriangles⟩ :=
    both_forms_show_triangles scraps "two scraps" (by decide) (by decide)
  obtain rfl : count = 3 := hcount
  obtain ⟨facet, record, hrest⟩ := htriangles 2 _ rfl
  exact ⟨facets, records, htext, hbinary, hlines, hbytes, _, facet, record, rfl, hrest⟩

end Solids.Stl
