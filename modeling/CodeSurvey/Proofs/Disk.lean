import CodeSurvey.Disk
import CodeSurvey.Proofs.Table
import CodeSurvey.Survey

/-!
# Places on a disk

Files that can be replaced, and the top folder of a disk. A tree and a file beside it do not touch
each other.
-/
namespace CodeSurvey.Disk

/-- A file can be written under a temporary name, moved to its place and read again, whatever it
holds. -/
def CanReplace (d : Disk) (path : String) : Prop :=
  ∀ bytes, ∃ written moved, d.write (Survey.temporaryPath path) bytes = .ok written ∧
    written.rename (Survey.temporaryPath path) path = .ok moved ∧ moved.read path = .ok bytes

theorem run_bind {α β : Type} {x : StateM Disk α} {f : α → StateM Disk β} {d next : Disk} {a : α}
    (h : x.run d = (a, next)) : (x >>= f).run d = (f a).run next := by
  rw [StateT.run_bind, h]
  rfl

theorem run_change {f : Disk → Except DiskFault Disk} {d next : Disk} (h : f d = .ok next) :
    (change f).run d = (.ok (), next) := by
  have hget : (get : StateM Disk Disk).run d = (d, d) := rfl
  refine (run_bind hget).trans ?_
  rw [h]
  rfl

/-! ### The top folder -/

theorem locate_top {entries : List (FileName × FileTree)} {name : FileName} {path : String}
    (hnames : names path = [.ofString ".", name]) (habsolute : isAbsolute path = true)
    (hname : name ≠ "." ∧ name ≠ "..")
    (hlink : ∀ target, entries.lookup name ≠ some (.link target)) :
    (⟨.folder entries, []⟩ : Disk).locate path = .ok [name] := by
  have hne : path ≠ "" := by
    rintro rfl
    cases habsolute
  rw [locate, if_neg hne, hnames, habsolute, if_pos rfl]
  cases h : entries.lookup name with
  | none => simp [follow, FileTree.at?, FileTree.child?, hname, h]
  | some t =>
    cases t with
    | link target => exact absurd h (hlink target)
    | _ => simp [follow, FileTree.at?, FileTree.child?, hname, h]

theorem locateEntry_top {entries : List (FileName × FileTree)} {name : FileName} {path : String}
    (hnames : names path = [.ofString ".", name]) (habsolute : isAbsolute path = true)
    (hname : name ≠ "." ∧ name ≠ "..") :
    (⟨.folder entries, []⟩ : Disk).locateEntry path = .ok [name] := by
  have hlocate : (⟨.folder entries, []⟩ : Disk).locate "/./." = .ok [] := by
    have hdots : names "/./." = [.ofString ".", .ofString ".", .ofString "."] := by decide
    have hroot : isAbsolute "/./." = true := by decide
    rw [locate, hdots, hroot]
    simp [follow, FileTree.at?]
  have hdot : (FileName.ofString ".").text = "." := by decide
  rw [locateEntry, hnames]
  simp [hname, habsolute, hdot, hlocate, Except.map]

/-! ### A file beside a tree -/

/-- A disk with a tree and, beside it, a file for the store. -/
def beside (src : List (FileName × FileTree)) (store : Option ByteArray) : Disk :=
  ⟨.folder (("src", .folder src) :: store.toList.map fun bytes =>
    (.ofString "store.json", .ofBytes bytes)), []⟩

/-- Exchanges the tree. -/
def putTree (src : List (FileName × FileTree)) (d : Disk) : Disk :=
  { d with root := d.root.set ["src"] (.folder src) }

variable (src : List (FileName × FileTree)) (store : Option ByteArray)

theorem putTree_beside (old : List (FileName × FileTree)) :
    putTree src (beside old store) = beside src store := by
  rfl

theorem find_beside : (beside src store).find "/src" = .ok (["src"], .folder src) := by
  have hlocate : (beside src store).locate "/src" = .ok ["src"] :=
    locate_top (by decide) (by decide) (by decide) (by simp)
  rw [find, hlocate]
  rfl

theorem read_beside : (beside src store).read "/store.json" = store.elim (.error .missing) .ok := by
  have hlocate : (beside src store).locate "/store.json" = .ok ["store.json"] :=
    locate_top (by decide) (by decide) (by decide) (by cases store <;> rintro _ ⟨⟩)
  rw [read, find, hlocate]
  cases store <;> rfl

theorem replace_beside (bytes : ByteArray) :
    ∃ written, (beside src store).write "/store.json.tmp" bytes = .ok written ∧
      written.rename "/store.json.tmp" "/store.json" = .ok (beside src (some bytes)) := by
  have hlocate : (beside src store).locate "/store.json.tmp" = .ok ["store.json.tmp"] :=
    locate_top (by decide) (by decide) (by decide) (by cases store <;> rintro _ ⟨⟩)
  let stored : List (FileName × FileTree) :=
    store.toList.map fun bytes => (.ofString "store.json", .ofBytes bytes)
  let temporary : FileName × FileTree := ("store.json.tmp", .ofBytes bytes)
  let written : Disk := ⟨.folder ((.ofString "src", .folder src) :: stored ++ [temporary]), []⟩
  refine ⟨written, ?_, ?_⟩
  · rw [write, hlocate]
    cases store <;> rfl
  · have hlocate' : written.locate "/store.json.tmp" = .ok ["store.json.tmp"] :=
      locate_top (by decide) (by decide) (by decide) (by cases store <;> rintro _ ⟨⟩)
    have hread : written.read "/store.json.tmp" = .ok bytes := by
      rw [read, find, hlocate']
      cases store <;> rfl
    have hplace : written.locateEntry "/store.json" = .ok ["store.json"] :=
      locateEntry_top (by decide) (by decide) (by decide)
    have hremove : written.locateEntry "/store.json.tmp" = .ok ["store.json.tmp"] :=
      locateEntry_top (by decide) (by decide) (by decide)
    rw [rename, hread, hplace, remove, hremove]
    cases store <;> rfl

theorem canReplace_beside : (beside src store).CanReplace "/store.json" := by
  intro bytes
  obtain ⟨written, hwrite, hmove⟩ := replace_beside src store bytes
  exact ⟨written, _, hwrite, hmove, read_beside src (some bytes)⟩

end CodeSurvey.Disk
