import Flowchart.Files

/-!
# Files that are written

* `Found.place?`: where a text is put that is written to a path.
* `write_eq_ok_iff`: writing puts the text there, and fails where there is no such place.
* `read_put`: then the path holds the text. What lies on the way to the place is there before and
  after, so the way is the same (`follow_put`).
-/

namespace Flowchart.Files

/-- The file that writing to a path fills or makes. -/
def Found.place? : Found → Option Path
  | .file path _ | .free path => some path
  | .directory _ | .slashed _ | .absent _ => none

variable {files : Files} {path there here : Path} {text : String} {slashed : Bool}
  {names : List String}

theorem isDirectory_put_of_isDirectory (h : files.isDirectory path = true) (there : Path)
    (text : String) : (files.put there text).isDirectory path = true := by
  simp only [isDirectory, Bool.or_eq_true, List.any_eq_true] at h ⊢
  refine h.imp_right fun ⟨e, he, hbelow⟩ => ?_
  -- The file that is replaced lies below the same directories.
  by_cases hthere : e.1 = there
  · exact ⟨(there, text.toUTF8), List.mem_cons_self, hthere ▸ hbelow⟩
  · exact ⟨e, List.mem_cons_of_mem _ (List.mem_filter.mpr ⟨he, by simpa using hthere⟩), hbelow⟩

/-- A file is no directory. -/
theorem isDirectory_put_self (h : files.isDirectory there = false) (text : String) :
    (files.put there text).isDirectory there = false := by
  simp only [isDirectory, Bool.or_eq_false_iff, List.any_eq_false] at h ⊢
  refine ⟨h.1, List.forall_mem_cons.mpr ⟨by simp, fun e he => ?_⟩⟩
  exact h.2 e ((List.mem_filter.mp he).1)

theorem isDirectory_of_place? (h : (files.follow slashed here names).place? = some there) :
    files.isDirectory there = false := by
  fun_induction follow files slashed here names with
  | case1 | case5 | case6 | case7 => cases h
  | case2 _ _ ih | case3 _ _ _ ih | case4 _ _ _ _ _ _ _ ih => exact ih h
  | case8 _ _ _ _ _ there' hdirectory | case9 _ _ _ _ _ there' hdirectory =>
    obtain rfl : there' = there := Option.some.inj h
    exact Bool.eq_false_iff.mpr hdirectory

/-- The way to a file is the same after the file is written. -/
theorem follow_put (h : (files.follow slashed here names).place? = some there) (text : String) :
    (files.put there text).follow slashed here names = .file there text.toUTF8 := by
  have hthere := isDirectory_put_self (isDirectory_of_place? h) text
  fun_induction follow files slashed here names with
  | case1 | case5 | case6 | case7 => cases h
  | case2 here rest ih => rw [follow, if_pos rfl, ih h]
  | case3 here rest hpoint ih => rw [follow, if_neg hpoint, if_pos rfl, ih h]
  | case4 here name rest hpoint hpoints there' hdirectory ih =>
    have hdirectory := isDirectory_put_of_isDirectory hdirectory there text
    rw [follow, if_neg hpoint, if_neg hpoints]
    exact (if_pos hdirectory).trans (ih h)
  | case8 here name rest hpoint hpoints there' _ hrest hslashed hlong
  | case9 here name rest hpoint hpoints there' _ hrest hslashed hlong =>
    have hplace : here ++ [name] = there := Option.some.inj h
    simp only [follow, if_neg hpoint, if_neg hpoints, hplace, hthere, if_neg hrest, if_neg hslashed,
      if_neg hlong, lookup_put_self, Bool.false_eq_true, ↓reduceIte]

theorem find_put {path : String} (h : (files.find path).place? = some there) (text : String) :
    (files.put there text).find path = .file there text.toUTF8 := by
  revert h
  fun_cases find files path with
  | case1 | case2 | case3 => exact fun h => nomatch h
  | case4 cs names hnul hempty hlong =>
    intro h
    rw [find]
    exact (if_neg hnul).trans ((if_neg hempty).trans ((if_neg hlong).trans (follow_put h text)))

/-- What is written to a path is read from it. -/
theorem read_put {path : String} (h : (files.find path).place? = some there) (text : String) :
    (files.put there text).read path = .ok text := by
  have htext : String.fromUTF8? text.toUTF8 = some text := dif_pos text.isValidUTF8
  simp only [read, find_put h, htext]

/-- Writing to a path puts the text into a file, if there is a place for it. -/
theorem write_eq_ok_iff {path : String} {files' : Files} : files.write path text = .ok files' ↔
    ∃ there, (files.find path).place? = some there ∧ files' = files.put there text := by
  unfold write
  cases files.find path <;> simp [Found.place?, eq_comm]

end Flowchart.Files
