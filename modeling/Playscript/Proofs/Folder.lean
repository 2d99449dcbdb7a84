import Playscript.Project.Release
import Playscript.Proofs.Ascending
import Playscript.Proofs.Trimming
import Playscript.Proofs.Utf8

/-!
# Folder — the folder that a package is extracted to

Where no destination is given, a package goes to a folder that has its name from the title and the
author of the manifest, whatever these are.  This file defines:

* `Project.OneFolder` — texts that name one folder, on whatever system;
* `Project.gamesBeside` — the directory for all these folders.

The main statement is `Project.folder_is_one_step`.
-/

namespace Playscript
namespace Project

open Playscript.Path (IsName)
open Text (Trimmed isBlank)

/-- A text that can be the name of one folder: it names an entry of a directory, none of its
characters has a meaning in paths or cannot be seen, and no white space stands at its ends. -/
structure OneFolder (name : String) : Prop where
  ne_empty : name ≠ ""
  ne_here : name ≠ "."
  ne_above : name ≠ ".."
  unreserved : ∀ c ∈ name.toList, c ∉ "/\\:*?\"<>|".toList
  uncontrolled : ∀ c ∈ name.toList, isControl c = false
  trimmed : Trimmed name.toList

/-! ## Characters -/

/-- What stands in a name for a character. -/
def replaced (c : Char) : Char := if isReserved c then '_' else c

theorem isReserved_iff {c : Char} :
    isReserved c = false ↔ c ∉ "/\\:*?\"<>|".toList ∧ isControl c = false := by
  rw [isReserved, String.contains_char_eq, Bool.or_eq_false_iff, decide_eq_false_iff_not]

theorem isReserved_replaced (c : Char) : isReserved (replaced c) = false := by
  rw [replaced]
  split
  · exact isReserved_iff.2 ⟨by decide, by decide⟩
  · exact Bool.eq_false_iff.2 ‹_›

theorem isBlank_replaced {c : Char} (h : isBlank c = false) : isBlank (replaced c) = false := by
  rw [replaced]
  split
  · rfl
  · exact h

/-! ## Names -/

theorem trimmed_map {f : Char → Char} (hf : ∀ c, isBlank c = false → isBlank (f c) = false)
    {cs : List Char} (h : Trimmed cs) : Trimmed (cs.map f) where
  head := by
    rw [List.head?_map]
    rintro _ hc
    rcases Option.map_eq_some_iff.1 hc with ⟨c, hhead, rfl⟩
    exact hf c (h.head c hhead)
  last := by
    rw [List.getLast?_map]
    rintro _ hc
    rcases Option.map_eq_some_iff.1 hc with ⟨c, hlast, rfl⟩
    exact hf c (h.last c hlast)

/-- A title without the blanks around it, and with another character for each reserved one. -/
def cleaned (title : String) : String := (Text.trim title).map replaced

theorem folderName_eq (m : Manifest) :
    folderName m =
      if cleaned (fullTitle m) = "" ∨ cleaned (fullTitle m) = "." ∨
          cleaned (fullTitle m) = ".." then "untitled"
      else cleaned (fullTitle m) := rfl

theorem isReserved_cleaned {title : String} {c : Char} (hc : c ∈ (cleaned title).toList) :
    isReserved c = false := by
  rw [cleaned, String.toList_map] at hc
  rcases List.mem_map.1 hc with ⟨original, -, rfl⟩
  exact isReserved_replaced original

theorem trimmed_cleaned (title : String) : Trimmed (cleaned title).toList := by
  rw [cleaned, String.toList_map, Text.trim, String.toList_ofList]
  exact trimmed_map (fun _ => isBlank_replaced) (Text.trimmed_trimChars _).1

/-- Cleaning keeps what is clean. -/
theorem cleaned_eq {title : String} (htrimmed : Trimmed title.toList)
    (hreserved : ∀ c ∈ title.toList, isReserved c = false) : cleaned title = title := by
  have hmap : title.toList.map replaced = title.toList.map id := by
    refine List.map_congr_left fun c hc => if_neg ?_
    rw [hreserved c hc]
    nofun
  rw [cleaned, Text.trim, Text.trimChars_of_trimmed htrimmed, String.ofList_toList,
    ← String.toList_inj, String.toList_map, hmap, List.map_id]

theorem oneFolder_untitled : OneFolder "untitled" where
  ne_empty := by decide
  ne_here := by decide
  ne_above := by decide
  unreserved := by simp
  uncontrolled := by simp [isControl]
  trimmed := ⟨by simp [isBlank, Text.blankRanges], by simp [isBlank, Text.blankRanges]⟩

theorem oneFolder_folderName (m : Manifest) : OneFolder (folderName m) := by
  rw [folderName_eq]
  split
  · exact oneFolder_untitled
  · rename_i h
    simp only [not_or] at h
    exact {
      ne_empty := h.1
      ne_here := h.2.1
      ne_above := h.2.2
      unreserved := fun c hc => (isReserved_iff.1 (isReserved_cleaned hc)).1
      uncontrolled := fun c hc => (isReserved_iff.1 (isReserved_cleaned hc)).2
      trimmed := trimmed_cleaned (fullTitle m) }

/-- A title that can be the name of a folder is kept. -/
theorem folderName_of_title (m : Manifest) {name : String} (h : OneFolder name) :
    folderName { m with title := some name, author := none } = name := by
  have hcleaned : cleaned name = name :=
    cleaned_eq h.trimmed fun c hc => isReserved_iff.2 ⟨h.unreserved c hc, h.uncontrolled c hc⟩
  have hfull : fullTitle { m with title := some name, author := none } = name := rfl
  rw [folderName_eq, hfull, hcleaned]
  exact if_neg (by simp [h.ne_empty, h.ne_here, h.ne_above])

/-! ## The folder in its directory -/

theorem OneFolder.isName {name : String} (h : OneFolder name) : IsName (Utf8.encode name) where
  step := by
    have hempty : Utf8.encode name ≠ [] := mt (Utf8.encode_inj (t := "")).1 h.ne_empty
    have hhere : Utf8.encode name ≠ [Path.dot] := mt (Utf8.encode_inj (t := ".")).1 h.ne_here
    have habove : Utf8.encode name ≠ [Path.dot, Path.dot] :=
      mt (Utf8.encode_inj (t := "..")).1 h.ne_above
    rw [Path.component?, if_neg (not_or.2 ⟨hempty, hhere⟩), if_neg habove]
  noSlash := by
    refine Utf8.not_mem_encodeChars (by decide) fun c hc hslash => ?_
    have heq : c = '/' := Char.ext (UInt32.toNat_inj.1 hslash)
    exact h.unreserved c hc (heq ▸ by decide)

/-- The directory for the folders of the packages that lie beside a package. -/
def gamesBeside (package : Path) : Path :=
  ((package.parent?).getD ⟨[]⟩).join (Path.ofString "games")

/-- The directory of all folders is named `games`, and every folder is right in it. -/
theorem usualDestination_in_games (package : Path) (m : Manifest) :
    (gamesBeside package).fileName? = some (Utf8.encode "games") ∧
    (usualDestination package m).parent? = some (gamesBeside package) ∧
    (usualDestination package m).components =
      (gamesBeside package).components ++ [.name (Utf8.encode (folderName m))] := by
  have hgames : IsName (Utf8.encode "games") := ⟨by decide, by decide⟩
  have hfolder : IsName (Utf8.encode (folderName m)) := (oneFolder_folderName m).isName
  have hnames : ∀ n ∈ [Utf8.encode "games"], IsName n := List.forall_mem_singleton.2 hgames
  have hbeside : gamesBeside package =
      ((package.parent?).getD ⟨[]⟩).below [Utf8.encode "games"] := Path.join_name _ _
  have hdestination : usualDestination package m =
      (gamesBeside package).below [Utf8.encode (folderName m)] := Path.join_name _ _
  have hne : (gamesBeside package).bytes ≠ [] :=
    hbeside ▸ Path.below_bytes_ne_nil (by simp) hnames
  refine ⟨?_, ?_, ?_⟩
  · rw [hbeside, Path.fileName?_below hgames]
  · rw [hdestination, ← Path.join_name, hbeside, Path.below_join (by simp) hnames hfolder]
    exact Path.parent?_below (by simp) hnames hfolder
  · rw [hdestination, Path.components_below hne (by simp) (List.forall_mem_singleton.2 hfolder)]
    rfl

/-- Whatever a manifest has for title and author, it gives the name of one folder; the folder to
which a package is extracted by itself is right in the directory for games; a title that has become
a folder gives the same folder again, and so does every title that can be the name of one. -/
theorem folder_is_one_step (m : Manifest) :
    OneFolder (folderName m) ∧
    (∀ package, (gamesBeside package).fileName? = some (Utf8.encode "games") ∧
      (usualDestination package m).parent? = some (gamesBeside package) ∧
      (usualDestination package m).components =
        (gamesBeside package).components ++ [.name (Utf8.encode (folderName m))]) ∧
    (∀ other : Manifest,
      folderName { other with title := some (folderName m), author := none } = folderName m) ∧
    ∀ name, OneFolder name → folderName { m with title := some name, author := none } = name :=
  ⟨oneFolder_folderName m, fun package => usualDestination_in_games package m,
    fun other => folderName_of_title other (oneFolder_folderName m),
    fun _ => folderName_of_title m⟩

/-- A title of two words is kept, whatever the author was. -/
theorem folder_is_one_step_for_two_words :
    let m : Manifest := ⟨some "..", some "a/b", "main.zhif", none, none, .empty⟩
    OneFolder "Night Train" ∧
    folderName { m with title := some "Night Train", author := none } = "Night Train" := by
  intro m
  have hfolder : OneFolder "Night Train" := {
    ne_empty := by decide
    ne_here := by decide
    ne_above := by decide
    unreserved := by simp
    uncontrolled := by simp [isControl]
    trimmed := ⟨by simp [isBlank, Text.blankRanges], by simp [isBlank, Text.blankRanges]⟩ }
  exact ⟨hfolder, (folder_is_one_step m).2.2.2 _ hfolder⟩

end Project
end Playscript
