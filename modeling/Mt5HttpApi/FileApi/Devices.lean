import Mt5HttpApi.Compile.Confined
import Mt5HttpApi.FileApi.Tree

/-!
# Names of devices in the two path checks

The file API refuses a segment whose part before the first dot is a device name, by a regular
expression; the compile endpoint strips that part first, and knows the two names of the console.

- `spares_devices_iff`: which of the segments that the file API accepts are devices by the rule of
  the compile endpoint;
- `not_spares_devices`: a file named `CONOUT$` may be written.
-/

namespace FileApi

open Text Compile

/-- The part of a segment that `_outside_path_reason` looks at, before and after it is stripped and
upper-cased. -/
def stem (segment : Name) : List Char := segment.takeWhile (· ≠ '.')

/-- `segment.split(".")[0].strip().upper()` -/
def deviceKey (u : Casing) (segment : Name) : List Char :=
  (strip (stem segment)).flatMap u.upper

/-- A device by the rule of the compile endpoint. -/
def namesDevice (u : Casing) (segment : Name) : Prop := deviceKey u segment ∈ deviceNames

/-- The names of the console's buffers. -/
def consoleNames : List (List Char) := ["CONIN$".toList, "CONOUT$".toList]

/-- The device names that both checks know. -/
def commonNames : List (List Char) := deviceNames.filter (· ∉ consoleNames)

/-- No segment is one of the console's names, or a device name with white space around it. -/
def PlainDevices (u : Casing) (segments : List Name) : Prop :=
  ∀ segment ∈ segments, deviceKey u segment ∉ consoleNames ∧
    (strip (stem segment) ≠ stem segment → deviceKey u segment ∉ commonNames)

variable {u : Casing} {raw : List Char} {segments : List Name}

/-- A device name that both checks know is of ASCII, and no character outside ASCII becomes part of
it. -/
theorem commonNames_ascii : ∀ name ∈ commonNames, ∀ c ∈ name, c.toNat < 128 ∧
    c ∉ ['F', 'I', 'S'] := by
  have hall : ∀ name ∈ commonNames,
      (name.all fun c => decide (c.toNat < 128 ∧ c ∉ ['F', 'I', 'S'])) = true := by decide
  intro name hname c hc
  exact of_decide_eq_true (List.all_eq_true.mp (hall name hname) c hc)

/-- A text whose upper case is such a name is of ASCII too. -/
theorem map_toUpper_of_commonNames {text : List Char} (h : text.flatMap u.upper ∈ commonNames) :
    text.map Char.toUpper = text.flatMap u.upper := by
  have hascii : ∀ c ∈ text, u.upper c = [c.toUpper] := by
    intro c hc
    apply u.upper_ascii
    by_contra hge
    have hpart : ∀ d ∈ u.upper c, d ∈ text.flatMap u.upper :=
      fun d hd => List.mem_flatMap.mpr ⟨c, hc, hd⟩
    obtain ⟨d, hd, hletter⟩ := u.upper_other c (not_lt.mp hge)
      fun d hd => (commonNames_ascii _ h d (hpart d hd)).1
    exact (commonNames_ascii _ h d (hpart d hd)).2 hletter
  clear h
  induction text with
  | nil => rfl
  | cons c text ih =>
    rw [List.flatMap_cons, hascii c List.mem_cons_self, List.map_cons,
      ih fun d hd => hascii d (List.mem_cons_of_mem c hd)]
    rfl

/-- The regular expression knows these names, whatever their case. -/
theorem reservedStem_of_commonNames {text : List Char} (h : text.map Char.toUpper ∈ commonNames) :
    reservedStem text = true := by
  have hcase : reservedStem text = reservedStem (text.map Char.toUpper) := by
    have hlower : (text.map Char.toUpper).map Char.toLower = text.map Char.toLower := by
      rw [List.map_map]
      apply List.map_congr_left
      intro c _
      exact Char.toLower_toUpper_eq_toLower c
    rw [reservedStem, reservedStem, hlower]
  have hall : ∀ name ∈ commonNames, reservedStem name = true := by decide
  rw [hcase]
  exact hall _ h

/-- Every segment of an accepted path passed its checks. -/
theorem checkSegment_of_pathSegments (h : pathSegments raw = .ok segments) :
    ∀ segment ∈ segments, checkSegment segment = none := by
  rw [pathSegments] at h
  split at h
  · cases h
  split at h
  · cases h
    exact fun segment hs => absurd hs List.not_mem_nil
  split at h
  · cases h
  next hnone =>
    cases h
    exact List.findSome?_eq_none_iff.mp hnone

/-- A segment that passes has no reserved stem. -/
theorem reservedStem_of_checkSegment {segment : Name} (h : checkSegment segment = none) :
    reservedStem (stem segment) = false := by
  unfold checkSegment at h
  by_contra hreserved
  rw [Bool.not_eq_false] at hreserved
  rw [stem] at hreserved
  simp only [hreserved] at h
  split_ifs at h

/-- The segments of a path that the file API accepts are no devices by the rule of the compile
endpoint just when none of them is the console, or has white space around the name of a device. -/
theorem spares_devices_iff (u : Casing) (raw : List Char) (segments : List Name)
    (h : pathSegments raw = .ok segments) :
    (∀ segment ∈ segments, ¬ namesDevice u segment) ↔ PlainDevices u segments := by
  have hsplit : ∀ key, key ∈ deviceNames ↔ key ∈ consoleNames ∨ key ∈ commonNames := by
    intro key
    rw [commonNames, List.mem_filter, decide_eq_true_eq]
    have hconsole : consoleNames ⊆ deviceNames := by decide
    constructor
    · intro hkey
      by_cases hc : key ∈ consoleNames
      · exact Or.inl hc
      · exact Or.inr ⟨hkey, hc⟩
    · rintro (hc | ⟨hkey, -⟩)
      · exact hconsole hc
      · exact hkey
  constructor
  · intro hnone segment hs
    have hkey := hnone segment hs
    rw [namesDevice, hsplit, not_or] at hkey
    exact ⟨hkey.1, fun _ => hkey.2⟩
  · intro hplain segment hs hdevice
    obtain ⟨hconsole, hpadded⟩ := hplain segment hs
    rw [namesDevice, hsplit] at hdevice
    have hcommon := hdevice.resolve_left hconsole
    -- without white space around it, the file API knows the name itself
    have hstem : strip (stem segment) = stem segment := by
      by_contra hne
      exact hpadded hne hcommon
    rw [deviceKey, hstem] at hcommon
    have hreserved :=
      reservedStem_of_commonNames ((map_toUpper_of_commonNames hcommon).symm ▸ hcommon)
    rw [reservedStem_of_checkSegment (checkSegment_of_pathSegments h segment hs)] at hreserved
    cases hreserved

theorem spares_devices_iff_expert :
    pathSegments "MQL5\\Experts/my ea.mq5".toList =
        .ok ["MQL5".toList, "Experts".toList, "my ea.mq5".toList] ∧
      ∀ segment ∈ ["MQL5".toList, "Experts".toList, "my ea.mq5".toList],
        ¬ namesDevice Casing.ascii segment :=
  ⟨by decide,
    (spares_devices_iff Casing.ascii "MQL5\\Experts/my ea.mq5".toList _ (by decide)).mpr (by
      intro segment hs
      revert segment
      decide)⟩

/-- The file API accepts a name of the console. -/
theorem not_spares_devices : ¬ ∀ (u : Casing) (raw : List Char) (segments : List Name),
    pathSegments raw = .ok segments → ∀ segment ∈ segments, ¬ namesDevice u segment := by
  intro h
  have hok : pathSegments "conout$".toList = .ok ["conout$".toList] := by decide
  exact h Casing.ascii _ _ hok "conout$".toList (List.mem_singleton_self _)
    (by unfold namesDevice; decide)

end FileApi
