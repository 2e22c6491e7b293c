import FluentBuilders.Command.Run
import FluentBuilders.Config.Save
import FluentBuilders.Proofs.Config.Validity
import FluentBuilders.Proofs.Files.Tree
import FluentBuilders.Proofs.Json.ReadBack
import FluentBuilders.Proofs.Text.Utf8

/-!
# Proofs/Config/SaveLoad — a saved configuration is loaded again unchanged

The text of a configuration is read back to its JSON (`ofText?_saved`), and the JSON of an accepted
configuration is checked to the configuration itself.  In a tree of files the same holds from one
run to the next: the file that saving wrote decodes to the text it was written from.
-/

namespace FluentBuilders.Config

open Json

/-- Two objects are the most that are nested in each other. -/
theorem isPlain_toJson (c : Config) (depth : Nat) : Json.IsPlain (depth + 2) c.toJson := by
  have hresolution : Json.IsPlain (depth + 1) c.resolution.toJson :=
    .object (by simp) (by simp [Json.IsPlain.bool])
  have hemit : Json.IsPlain (depth + 1) c.emit.toJson :=
    .object (by simp) (by simp [Json.IsPlain.bool, Json.IsPlain.string])
  have hnaming : Json.IsPlain (depth + 1) c.naming.toJson :=
    .object (by simp) (by simp [Json.IsPlain.string])
  exact .object (by simp) (by simp [Json.IsPlain.string, hresolution, hemit, hnaming])

/-- **The text of a configuration is read back to its JSON.** -/
theorem ofText?_saved (c : Config) : ofText? c.saved = some c.toJson :=
  ofText?_indented (isPlain_toJson c _)

/-- **The file of a saved configuration holds its text.** -/
theorem ofFile_saved (c : Config) : Text.ofFile c.saved.toUTF8 = .ok c.saved :=
  Text.ofFile_toUTF8 (notMem_indented (isPlain_toJson c 0) (by decide))

theorem isRead_defaultPath {c : Config} (h : c.outputDir.IsRead) : c.defaultPath.IsRead := by
  have hname : Path.IsName fileName := by decide
  rw [defaultPath, Path.child_of_isName _ hname]
  exact List.forall_mem_append.2 ⟨h, List.forall_mem_singleton.2 hname⟩

/-- What saving does to a tree: one file is written. -/
theorem save_eq_ok {c : Config} {t t' : FileTree} {p : Path} :
    save (m := StateM FileTree) c t = (.ok p, t') ↔
      p = c.defaultPath ∧ t.perform (.write c.defaultPath c.saved.toUTF8) = .ok t' := by
  rw [save, FileTree.bind_apply]
  cases hperform : t.perform (.write c.defaultPath c.saved.toUTF8) with
  | error e =>
    rw [FileTree.perform_of_error hperform]
    change ((.error e, t) : Except FileError Path × FileTree) = _ ↔ _
    simp
  | ok changed =>
    rw [FileTree.perform_of_ok hperform]
    change ((.ok c.defaultPath, changed) : Except FileError Path × FileTree) = _ ↔ _
    simp [@eq_comm _ p]

/-- What reading a configuration from a file of a tree gives. -/
theorem readConfig_of_read {t : FileTree} {env : Environment} {name : String} {bytes : ByteArray}
    {text : String} {c : Config} (hname : name ≠ "") (hread : t.read (Path.ofString name) = .ok bytes)
    (htext : Text.ofFile bytes = .ok text) (hload : load text = .valid c) :
    readConfig (m := StateM FileTree) env (some name) t = (.ok c, t) := by
  have hgiven : given? (some name) = some name := by simp [given?, hname]
  simp [readConfig, hgiven, FileTree.bind_apply, readText, FileTree.read_apply, hread, htext,
    FileTree.pure_apply, hload, Checked.orFaulty]

/-- **A saved configuration loads back unchanged**: what validation accepts is loaded from its text
as it was, and saved to the same text again; and a command given the path of the file that saving
wrote runs under the configuration that was saved. -/
theorem load_saved (c : Config) (h : c.Accepted) :
    (∃ loaded, load c.saved = .valid loaded ∧ loaded = c ∧ loaded.saved = c.saved) ∧
      ∀ (t t' : FileTree) (p : Path) (env : Environment),
        save (m := StateM FileTree) c t = (.ok p, t') →
          readConfig (m := StateM FileTree) env (some p.text) t' = (.ok c, t') := by
  have hvalid := accepted_iff.1 h
  have hload : load c.saved = .valid c := by
    rw [load, ofText?_saved]
    exact check_toJson hvalid
  refine ⟨⟨c, hload, rfl, rfl⟩, fun t t' p env hsave => ?_⟩
  obtain ⟨rfl, hwrite⟩ := save_eq_ok.1 hsave
  have hpath := Path.ofString_text (isRead_defaultPath hvalid.outputDir)
  refine readConfig_of_read ?_ ?_ (ofFile_saved c) hload
  · exact Path.text_ne_empty (isRead_defaultPath hvalid.outputDir)
  · rw [hpath]
    exact FileTree.read_of_write hwrite

/-- Quotes, a backslash, control characters and letters of other scripts, below a directory whose
path goes up again: all of it comes back. -/
theorem load_saved_escapes :
    let c : Config :=
      { outputDir := ⟨.relative, ["a", "..", "ü"]⟩
        emit :=
          { indent := "\t ", quote := .double, extension := ".tsx"
            partialModule := "\"a\\b\"\n\r\x01\x7f é 😀" }
        naming := { classSuffix := "", factoryPrefix := "\x00" } }
    let t := FileTree.empty ["w"]
    c.Accepted ∧ load c.saved = .valid c ∧
      ∃ t', save (m := StateM FileTree) c t = (.ok c.defaultPath, t') ∧
        readConfig (m := StateM FileTree) [] (some "a/../ü/tsbuilder.json") t' = (.ok c, t') := by
  intro c t
  have hvalid : c.IsValid :=
    ⟨by decide, by constructor <;> decide, by constructor <;> decide⟩
  obtain ⟨⟨loaded, hload, rfl, -⟩, hfile⟩ := load_saved c (accepted_iff.2 hvalid)
  have hwrite : ∀ content, ∃ t', t.perform (.write c.defaultPath content) = .ok t' :=
    fun _ => ⟨_, rfl⟩
  obtain ⟨t', ht'⟩ := hwrite c.saved.toUTF8
  have hsave : save (m := StateM FileTree) c t = (.ok c.defaultPath, t') := save_eq_ok.2 ⟨rfl, ht'⟩
  exact ⟨accepted_iff.2 hvalid, hload, t', hsave, hfile t t' c.defaultPath [] hsave⟩

end FluentBuilders.Config
