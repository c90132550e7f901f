import Mathlib.Data.List.Nodup
import Flowchart.Svg

/-!
# Arrow heads

Every edge of a document ends in an arrow head: its path names a marker, which the document defines
in the colour of the path.

* `Markup.elements` finds the elements of a document by name. Its markers are one for each colour of
  edges, and its paths one for each edge (`elements_marker_document`, `elements_path_document`).
* `ArrowsResolve`: the markers of a document have different ids, and every path names one of them
  that has its own colour.
* Markers are put together by the colours being equal and told apart by the texts of the colours
  with some characters replaced. So both can fail: two colours may share an id, and two equal
  colours may be written differently. `document_arrows_iff` says when neither does.
-/

namespace Flowchart

/-! ## Elements of a document -/

namespace Markup

/-- The value of an attribute. -/
def attribute? (key : String) : Markup → Option String
  | .text _ => none
  | .element _ attributes _ => attributes.lookup key

mutual

/-- The elements of a given name in a piece of markup, in the order of its text. -/
def elements (name : String) : Markup → List Markup
  | .text _ => []
  | .element tag attributes children =>
    (if tag = name then [.element tag attributes children] else []) ++ elementsAll name children

/-- The elements of a given name in pieces of markup. -/
def elementsAll (name : String) : List Markup → List Markup
  | [] => []
  | m :: ms => elements name m ++ elementsAll name ms

end

variable {name tag : String} {attributes : List (String × String)} {children : List Markup}

theorem elementsAll_eq_flatMap (ms : List Markup) :
    elementsAll name ms = ms.flatMap (elements name) := by
  induction ms with
  | nil => rw [elementsAll, List.flatMap_nil]
  | cons m ms ih => rw [elementsAll, ih, List.flatMap_cons]

theorem elements_of_ne (h : tag ≠ name) : elements name (.element tag attributes children) =
    elementsAll name children := by
  rw [elements, if_neg h, List.nil_append]

end Markup

/-! ## Elements of a chart -/

namespace Svg

open Markup

variable (p : Palette) {name : String}

/-- The names of the elements that boxes and labels are drawn with. -/
def plainNames : List String := ["g", "rect", "polygon", "text"]

theorem elements_plain {tag : String} {attributes : List (String × String)} {children : List Markup}
    (h : name ∉ plainNames) (ht : tag ∈ plainNames) (hs : ∀ m ∈ children, m.elements name = []) :
    (Markup.element tag attributes children).elements name = [] := by
  have hne : tag ≠ name := fun heq => h (heq ▸ ht)
  rw [elements_of_ne hne, elementsAll_eq_flatMap]
  exact List.flatMap_eq_nil_iff.mpr hs

theorem elements_textElement (h : name ∉ plainNames) (attributes : List (String × String))
    (content : String) :
    (Markup.element "text" attributes [.text content]).elements name = [] :=
  elements_plain h (by decide) (by simp [elements])

theorem elements_shape (h : name ∉ plainNames) (s : Shape Float32) :
    (shape p s).elements name = [] := by
  cases s <;> exact elements_plain h (by decide) (by simp)

theorem elements_box (h : name ∉ plainNames) (b : Box Float32) : (box p b).elements name = [] := by
  refine elements_plain h (by decide) (List.forall_mem_cons.mpr ⟨elements_shape p h b.shape, ?_⟩)
  intro m hm
  obtain ⟨i, hi, rfl⟩ := List.mem_mapIdx.mp hm
  exact elements_textElement h ..

theorem elements_edgeLabel (h : name ∉ plainNames) (e : Edge Float32) (label : String) :
    (edgeLabel p e label).elements name = [] := by
  refine elements_plain h (by decide) (List.forall_mem_cons.mpr
    ⟨elements_plain h (by decide) (by simp), List.forall_mem_singleton.mpr ?_⟩)
  exact elements_textElement h ..

/-- Of what is drawn only the edges are neither boxes nor labels. -/
theorem elements_content (h : name ∉ plainNames) (s : Scene Float32) :
    (content p s).elements name = s.edges.flatMap fun e => (path p e).elements name := by
  have hne : "g" ≠ name := fun heq => h (heq ▸ List.mem_cons_self)
  have hboxes : (s.boxes.map (box p)).flatMap (elements name) = [] := by
    simp [elements_box p h]
  have hlabels : (s.edges.filterMap fun e => e.label.map (edgeLabel p e)).flatMap
      (elements name) = [] := by
    simp only [List.flatMap_eq_nil_iff, List.mem_filterMap, Option.map_eq_some_iff]
    rintro _ ⟨e, -, label, -, rfl⟩
    exact elements_edgeLabel p h e label
  rw [content, elements_of_ne hne, elementsAll_eq_flatMap, List.flatMap_append,
    List.flatMap_append, hboxes, hlabels, List.append_nil, List.append_nil, List.flatMap_map]

theorem elements_document (h : name ∉ "svg" :: "defs" :: plainNames) (s : Scene Float32) :
    (document p s).elements name = ((edgeColors p).flatMap fun c => (marker c).elements name) ++
      s.edges.flatMap fun e => (path p e).elements name := by
  simp only [List.mem_cons, not_or] at h
  obtain ⟨hsvg, hdefs, hplain⟩ := h
  have hrect (attributes : List (String × String)) :
      (Markup.element "rect" attributes []).elements name = [] :=
    elements_plain hplain (by decide) (by simp)
  rw [document, elements_of_ne (Ne.symm hsvg), elementsAll_eq_flatMap]
  simp only [List.flatMap_cons, List.flatMap_nil, List.append_nil, elements_content p hplain, hrect,
    elements_of_ne (Ne.symm hdefs), elementsAll_eq_flatMap, List.flatMap_map, List.nil_append]

theorem elements_marker_document (s : Scene Float32) :
    (document p s).elements "marker" = (edgeColors p).map marker := by
  rw [elements_document p (by decide), List.map_eq_flatMap]
  simp [marker, path, elements, elementsAll]

theorem elements_path_document (s : Scene Float32) :
    (document p s).elements "path" = s.edges.map (path p) := by
  rw [elements_document p (by decide), List.map_eq_flatMap]
  simp [marker, path, elements, elementsAll]

/-! ## Arrow heads -/

/-- The path names the marker, and its line has the colour that the marker is filled with. -/
def EndsIn (path marker : Markup) : Prop :=
  ∃ id color, marker.attribute? "id" = some id ∧
    path.attribute? "marker-end" = some ("url(#" ++ id ++ ")") ∧
    path.attribute? "stroke" = some color ∧
    ∃ polygon ∈ marker.elements "polygon", polygon.attribute? "fill" = some color

/-- The markers of the document have different ids, and each path ends in one of them. -/
structure ArrowsResolve (d : Markup) : Prop where
  nodup : ((d.elements "marker").map (·.attribute? "id")).Nodup
  endsIn : ∀ path ∈ d.elements "path", ∃ marker ∈ d.elements "marker", EndsIn path marker

theorem attribute?_id_marker (c : Color) : (marker c).attribute? "id" = some (markerId c) := rfl

theorem markerId_inj {c d : Color} : markerId c = markerId d ↔ c.id = d.id := by
  simp [markerId]

/-- A path ends in the marker of a colour if and only if that colour is written like its own. -/
theorem endsIn_path_marker_iff (e : Edge Float32) (c : Color) :
    EndsIn (path p e) (marker c) ↔ (edgeColor p e).render = c.render := by
  have hid {d : Color} (h : d.render = c.render) : markerId d = markerId c := by
    rw [markerId_inj, Color.id, Color.id, h]
  have hpolygon : (marker c).elements "polygon" =
      [.element "polygon" [("points", "0 0, 10 3.5, 0 7"), color "fill" c] []] := by
    simp [marker, elements, elementsAll]
  have hend : (path p e).attribute? "marker-end" =
      some ("url(#" ++ markerId (edgeColor p e) ++ ")") := by
    simp [path, attribute?, color, List.lookup_cons]
  have hstroke : (path p e).attribute? "stroke" = some (edgeColor p e).render := by
    simp [path, attribute?, color, List.lookup_cons]
  have hfill : (Markup.element "polygon" [("points", "0 0, 10 3.5, 0 7"), color "fill" c]
      []).attribute? "fill" = some c.render := by
    simp [attribute?, color, List.lookup_cons]
  simp only [EndsIn, attribute?_id_marker, hend, hstroke, hpolygon, List.mem_singleton,
    exists_eq_left, hfill, Option.some.injEq]
  constructor
  · rintro ⟨_, _, -, -, rfl, h⟩
    exact h.symm
  · intro h
    exact ⟨_, _, rfl, by rw [hid h], rfl, h.symm⟩

theorem arrowsResolve_document (s : Scene Float32) : ArrowsResolve (document p s) ↔
    ((edgeColors p).map markerId).Nodup ∧
      ∀ e ∈ s.edges, ∃ c ∈ edgeColors p, (edgeColor p e).render = c.render := by
  have hids : (((edgeColors p).map marker).map (·.attribute? "id")).Nodup ↔
      ((edgeColors p).map markerId).Nodup := by
    simp only [List.Nodup, List.pairwise_map, attribute?_id_marker, ne_eq, Option.some.injEq]
  have hends : (∀ l ∈ s.edges.map (path p), ∃ m ∈ (edgeColors p).map marker, EndsIn l m) ↔
      ∀ e ∈ s.edges, ∃ c ∈ edgeColors p, (edgeColor p e).render = c.render := by
    rw [List.forall_mem_map]
    simp only [List.mem_map, exists_exists_and_eq_and, endsIn_path_marker_iff]
  rw [← hids, ← hends, ← elements_marker_document p s, ← elements_path_document]
  exact ⟨fun h => ⟨h.nodup, h.endsIn⟩, fun h => ⟨h.1, h.2⟩⟩

/-- **Arrow heads.** The markers of a document have different ids, and every path names one of them
that is filled with the path's own colour, in exactly these cases. Where the way back has a colour
that equals the one of the other edges, no edge is dashed or both colours are written alike. Where
the two colours differ, so do their ids. -/
theorem document_arrows_iff (s : Scene Float32) : ArrowsResolve (document p s) ↔
    if p.backEdge == p.stroke then
      ∀ e ∈ s.edges, e.dashed = true → p.backEdge.render = p.stroke.render
    else p.backEdge.id ≠ p.stroke.id := by
  rw [arrowsResolve_document]
  by_cases h : p.backEdge == p.stroke
  · rw [if_pos h, edgeColors, if_pos h]
    simp only [List.map_cons, List.map_nil, List.nodup_singleton, true_and, List.mem_singleton,
      exists_eq_left]
    refine forall₂_congr fun e _ => ?_
    cases hd : e.dashed <;> simp [edgeColor, hd]
  · have hends : ∀ e ∈ s.edges, ∃ c ∈ [p.stroke, p.backEdge],
        (edgeColor p e).render = c.render := by
      intro e _
      cases hd : e.dashed with
      | false => exact ⟨p.stroke, by simp, by simp [edgeColor, hd]⟩
      | true => exact ⟨p.backEdge, by simp, by simp [edgeColor, hd]⟩
    rw [if_neg h, edgeColors, if_neg h, and_iff_left hends]
    simp [markerId_inj, eq_comm]

/-- Two colours whose texts differ in a point and a space only. -/
def clashingStyle : Style := { stroke := some "lab(50.1 5 2)", backEdge := some "lab(50 1.5 2)" }

/-- The way back of a loop, and nothing else. -/
def wayBack : Scene Float32 where
  boxes := []
  edges := [{
    kind := .loopBack
    source := ⟨0, 0⟩
    waypoints := []
    target := ⟨0, 10⟩
    dashed := true }]
  endY := 0

/-- The texts of the style are colours, and different ones, but the two markers have one id. -/
theorem clashing_arrows :
    ∃ p, clashingStyle.palette = .ok p ∧ ¬ ArrowsResolve (document p wayBack) := by
  have hclash : (match clashingStyle.palette with
    | .ok p => !(p.backEdge == p.stroke) && p.backEdge.id == p.stroke.id
    | .error _ => false) = true := by decide +kernel
  cases hp : clashingStyle.palette with
  | error e =>
    rw [hp] at hclash
    cases hclash
  | ok p =>
    simp only [hp, Bool.and_eq_true, Bool.not_eq_true', beq_iff_eq] at hclash
    refine ⟨p, rfl, fun h => ?_⟩
    rw [arrowsResolve_document, edgeColors, if_neg (by simp [hclash.1])] at h
    simp [markerId_inj, hclash.2] at h

end Svg

end Flowchart
