import Mt5HttpApi.Lib.Text

/-!
# Paths as Windows resolves them

A path by the rules of Windows, from a directory it is resolved against: both slashes separate, an
empty segment and `.` stay where they are, a segment of dots and spaces with two dots in it goes up,
and any other goes down. `walk` follows the segments and fails above the directory.

A device is named by its name in any case, spaces around it, and whatever follows a dot.
-/

namespace WindowsPath

/-- A part of a path between separators. -/
abbrev Segment := List Char

/-- The segments of a path. -/
def segments (path : List Char) : List Segment :=
  (Text.replaceChar '/' '\\' path).splitOn '\\'

/-- A segment that stays in its directory. -/
def Segment.stays (segment : Segment) : Bool := segment ∈ [[], ['.']]

/-- A segment that goes up. -/
def Segment.climbs (segment : Segment) : Bool :=
  segment.all (fun c => c = ' ' || c = '.') && 2 ≤ segment.count '.'

/-- The directory that a place is in, if that is not above the one started from. -/
def parent : List Segment → Option (List Segment)
  | [] => none
  | _ :: above => some above

/-- Where the segments lead, from a place given by the names on the way down to it; the last name
is the first of the list. -/
def walk : List Segment → List Segment → Option (List Segment)
  | below, [] => some below
  | below, segment :: rest =>
    if segment.stays then walk below rest
    else if segment.climbs then (parent below).bind fun above => walk above rest
    else walk (segment :: below) rest

/-- The names that stand for devices. -/
def devices : List Segment :=
  ["CON", "PRN", "AUX", "NUL", "CONIN$", "CONOUT$", "COM1", "COM2", "COM3", "COM4", "COM5", "COM6",
    "COM7", "COM8", "COM9", "LPT1", "LPT2", "LPT3", "LPT4", "LPT5", "LPT6", "LPT7", "LPT8",
    "LPT9"].map String.toList

/-- A segment that opens a device. -/
def Segment.IsDevice (segment : Segment) : Prop :=
  ∃ before name after extension : List Char, segment = before ++ name ++ after ++ extension ∧
    name.map Char.toUpper ∈ devices ∧ (∀ c ∈ before ++ after, c = ' ') ∧
      (extension = [] ∨ extension.head? = some '.')

/-- A path without a segment that goes up stays inside. -/
theorem walk_isSome {segments : List Segment} (h : ∀ segment ∈ segments, segment.climbs = false)
    (below : List Segment) : (walk below segments).isSome = true := by
  induction segments generalizing below with
  | nil => rfl
  | cons segment rest ih =>
    have hrest := fun s hs => h s (List.mem_cons_of_mem segment hs)
    rw [walk, h segment List.mem_cons_self]
    -- the depth never sinks: each segment stays or goes down
    split
    · exact ih hrest below
    · exact ih hrest (segment :: below)

/-- No name of a device has a dot or a space in it. -/
theorem plain_of_mem_devices : ∀ name ∈ devices, ∀ c ∈ name, c ≠ '.' ∧ c ≠ ' ' ∧ c.toNat < 128 := by
  decide

/-- What of a device's segment is before the first dot. -/
theorem Segment.IsDevice.stem {segment : Segment} (h : segment.IsDevice) :
    ∃ before name after : List Char, segment.takeWhile (· ≠ '.') = before ++ name ++ after ∧
      name.map Char.toUpper ∈ devices ∧ (∀ c ∈ before, c = ' ') ∧ ∀ c ∈ after, c = ' ' := by
  obtain ⟨before, name, after, extension, rfl, hname, hspaces, hextension⟩ := h
  refine ⟨before, name, after, ?_, hname, fun c hc => hspaces c (List.mem_append_left _ hc),
    fun c hc => hspaces c (List.mem_append_right _ hc)⟩
  have hdot : ∀ c ∈ before ++ name ++ after, (decide (c ≠ '.')) = true := by
    intro c hc
    rw [decide_eq_true_eq]
    rintro rfl
    simp only [List.mem_append] at hc
    rcases hc with (hc | hc) | hc
    · exact absurd (hspaces _ (List.mem_append_left _ hc)) (by decide)
    · -- a dot has no other case
      exact (plain_of_mem_devices _ hname _ (List.mem_map_of_mem hc)).1 (by decide)
    · exact absurd (hspaces _ (List.mem_append_right _ hc)) (by decide)
  rw [List.takeWhile_append_of_pos hdot]
  rcases hextension with rfl | hextension
  · simp
  · obtain ⟨rest, rfl⟩ : ∃ rest, extension = '.' :: rest := by
      cases extension with
      | nil => cases hextension
      | cons c rest => exact ⟨rest, by rw [Option.some.inj hextension]⟩
    simp

end WindowsPath
