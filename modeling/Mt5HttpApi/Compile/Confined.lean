import Mt5HttpApi.Compile.SourceScan
import Mt5HttpApi.Lib.WindowsPath

/-!
# The path rule keeps paths inside

What MetaEditor makes of a path in a directive: from which directory it resolves the path, and where
that leads by the rules of Windows (`resolve`). A path that the path rule lets through leads to a
place under that directory, and no segment of it opens a device (`staysInside`).
-/

namespace Compile

open Text WindowsPath

/-- `str.upper` of single characters, with what the names of devices need of it: ASCII letters have
their own upper case, and a character outside ASCII becomes a text of ASCII only where that has an
`F`, an `I` or an `S` in it, as the ligatures, the dotless i, the long s and the sharp s do. -/
structure Casing extends Unicode where
  upper_ascii : ∀ c, c.toNat < 128 → upper c = [c.toUpper]
  upper_other : ∀ c, 128 ≤ c.toNat → (∀ d ∈ upper c, d.toNat < 128) →
    ∃ d ∈ upper c, d ∈ ['F', 'I', 'S']

/-- The directory that a path is resolved from. -/
inductive Base
  /-- That of the source, or for `<...>` the include tree. -/
  | own
  /-- The root of the MQL5 tree. -/
  | mql5
  deriving DecidableEq

/-- Where a path of a directive leads: from which directory, and the names on the way down, the last
one first. There is no such place for a drive, a stream, a UNC path, the root of the drive, and
above the directory. -/
def resolve (directive path : List Char) : Option (Base × List Segment) :=
  let normalized := replaceChar '/' '\\' path
  if ':' ∈ path then none
  else match normalized with
    | '\\' :: '\\' :: _ => none
    | '\\' :: _ =>
      -- the root of the drive for an include, that of the MQL5 tree for a resource or an icon
      if directive = "include".toList then none
      else (walk [] (segments path)).map fun below => (.mql5, below)
    | _ => (walk [] (segments path)).map fun below => (.own, below)

variable {u : Casing} {segment : List Char}

/-- A segment that goes up is refused. -/
theorem climbs_of_segmentReason (h : segmentReason u.toUnicode segment = none) :
    Segment.climbs segment = false := by
  by_contra hclimbs
  rw [Bool.not_eq_false, Segment.climbs, Bool.and_eq_true, List.all_eq_true,
    decide_eq_true_eq] at hclimbs
  obtain ⟨hall, hdots⟩ := hclimbs
  have hname : segment ∉ [[], ['.']] := by
    intro hmem
    simp only [List.mem_cons, List.not_mem_nil, or_false] at hmem
    rcases hmem with rfl | rfl
    · exact absurd hdots (by decide)
    · exact absurd hdots (by decide)
  have hstrip : stripOf [' ', '.'] segment = [] := by
    rw [stripOf_eq_nil_iff]
    intro c hc
    have hc := hall c hc
    simpa using hc
  rw [segmentReason, if_pos ⟨hname, hstrip⟩] at h
  cases h

/-- A character outside ASCII has no other case that Windows knows. -/
theorem toUpper_of_le {c : Char} (h : 128 ≤ c.toNat) : c.toUpper = c := by
  unfold Char.toUpper
  rw [dif_neg]
  simp only [UInt32.le_iff_toNat_le]
  intro hlower
  have hz : c.toNat ≤ 122 := hlower.2
  omega

/-- The name of a device in any case is that name in upper case. -/
theorem upper_of_device {name : List Char} (h : name.map Char.toUpper ∈ devices) :
    name.flatMap u.upper = name.map Char.toUpper := by
  have hascii : ∀ c ∈ name, u.upper c = [c.toUpper] := by
    intro c hc
    have hupper := (plain_of_mem_devices _ h _ (List.mem_map_of_mem hc)).2.2
    apply u.upper_ascii
    by_contra hge
    rw [toUpper_of_le (not_lt.mp hge)] at hupper
    exact hge hupper
  clear h
  induction name with
  | nil => rfl
  | cons c name ih =>
    rw [List.flatMap_cons, hascii c List.mem_cons_self, List.map_cons,
      ih fun d hd => hascii d (List.mem_cons_of_mem c hd)]
    rfl

/-- The name of a device has no space in it. -/
theorem strip_of_device {name : List Char} (h : name.map Char.toUpper ∈ devices) :
    strip name = name := by
  have hnone : ∀ known ∈ devices, ∀ c ∈ known, isSpace c = false := by decide
  apply strip_of_forall
  intro c hc
  by_contra hspace
  rw [Bool.not_eq_false] at hspace
  -- white space has no other case
  have hsame : [c.toUpper] = [c] := (Unicode.ascii.upper_space c hspace).symm ▸ rfl
  have hupper := hnone _ h _ (List.mem_map_of_mem hc)
  rw [List.singleton_inj.mp hsame, hspace] at hupper
  cases hupper

theorem devices_subset_deviceNames : devices ⊆ deviceNames := by decide

/-- A segment that opens a device is refused. -/
theorem not_isDevice_of_segmentReason (h : segmentReason u.toUnicode segment = none) :
    ¬ Segment.IsDevice segment := by
  intro hdevice
  obtain ⟨before, name, after, hstem, hname, hbefore, hafter⟩ := hdevice.stem
  have hspace : ∀ c, c = ' ' → isSpace c = true := by
    rintro c rfl
    decide
  -- the name has no space at its ends, so stripping leaves the name
  have hstrip : strip (segment.takeWhile (· ≠ '.')) = name := by
    rw [hstem, strip_pad (fun c hc => hspace c (hbefore c hc)) fun c hc => hspace c (hafter c hc)]
    exact strip_of_device hname
  rw [segmentReason] at h
  split at h
  · cases h
  · rw [hstrip, upper_of_device hname, if_pos (devices_subset_deviceNames hname)] at h
    cases h

/-- A path that the rule lets through leads to a place under the directory that it is resolved from,
and none of its segments opens a device. -/
theorem staysInside (u : Casing) (directive path : List Char)
    (h : outsidePathReason u.toUnicode directive path = none) :
    (resolve directive path).isSome = true ∧
      ∀ segment ∈ segments path, ¬ Segment.IsDevice segment := by
  rw [outsidePathReason] at h
  split at h
  · cases h
  next hcolon =>
  split at h
  · cases h
  next hunc =>
  split at h
  · cases h
  next hroot =>
  have hreasons : ∀ segment ∈ segments path, segmentReason u.toUnicode segment = none :=
    List.findSome?_eq_none_iff.mp h
  have hwalk := walk_isSome (fun segment hs => climbs_of_segmentReason (hreasons segment hs)) []
  refine ⟨?_, fun segment hs => not_isDevice_of_segmentReason (hreasons segment hs)⟩
  have hdrive : ':' ∉ path := by
    intro hmem
    exact hcolon (List.mem_map.mpr ⟨':', hmem, by decide⟩)
  rw [resolve, if_neg hdrive]
  split
  next rest heq =>
    rw [heq] at hunc
    exact absurd rfl hunc
  next rest _ heq =>
    rw [heq] at hroot
    rw [if_neg fun hinclude => hroot ⟨rfl, hinclude⟩, Option.isSome_map]
    exact hwalk
  next =>
    rw [Option.isSome_map]
    exact hwalk

/-- Case by ASCII letters alone. -/
def Casing.ascii : Casing where
  toUnicode := Unicode.ascii
  upper_ascii _ _ := rfl
  upper_other c hc hascii := by
    have hupper := hascii c.toUpper (List.mem_singleton_self _)
    rw [toUpper_of_le hc] at hupper
    omega

theorem staysInside_icon : resolve "property icon".toList "\\Images/my.bmp".toList =
    some (.mql5, ["my.bmp".toList, "Images".toList]) ∧
      ∀ segment ∈ segments "\\Images/my.bmp".toList, ¬ Segment.IsDevice segment :=
  ⟨by decide, (staysInside Casing.ascii "property icon".toList "\\Images/my.bmp".toList
    (by decide)).2⟩

end Compile
