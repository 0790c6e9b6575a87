import JobProvenance.Client.Importer
import JobProvenance.Client.MessageLines

/-!
# Messages to the importer

What `glite_jpimporter_upload_files` stores in the queue of the importer: a message that
names the job, the archive it has packed the files into, the proxy of the user and, if one is
set, the storage to upload to. The importer reads these back (`reads_uploadFilesMsg`).
-/

namespace JobProvenance

/-- The message about an archive to be uploaded. -/
def uploadFilesMsg (jobid archive proxy : Bytes) (jpps : Option Bytes) : Bytes :=
  match jpps with
  | some jpps =>
    ascii "jobid\t" ++ jobid ++ ascii "\nfile\t" ++ archive ++ ascii "\nproxy\t" ++ proxy ++
      ascii "\njpps\t" ++ jpps ++ ascii "\n"
  | none =>
    ascii "jobid\t" ++ jobid ++ ascii "\nfile\t" ++ archive ++ ascii "\nproxy\t" ++ proxy ++
      ascii "\n"

/-- A string that can stand in a line as a value: it does not begin with a blank. -/
structure IsLineValue (val : Bytes) : Prop where
  ne_nil : val ≠ []
  nul_notMem : 0 ∉ val
  newline_notMem : ch '\n' ∉ val
  head : ∀ c ∈ val.head?, isBlank c = false

section Lines

variable {key val jobid archive proxy : Bytes} {jpps : Option Bytes}

/-- A line of a key, a tab and a value. -/
theorem lineEntry_tab (hne : key ≠ []) (hkey : ∀ b ∈ key, isBlank b = false)
    (hval : IsLineValue val) : lineEntry (key ++ 9 :: val) = some (some (key, val)) := by
  obtain ⟨c, val, rfl⟩ := List.exists_cons_of_ne_nil hval.ne_nil
  have hc : isBlank c = false := hval.head c rfl
  have hstart : (key ++ 9 :: c :: val).dropWhile isBlank = key ++ 9 :: c :: val := by
    obtain ⟨k, key, rfl⟩ := List.exists_cons_of_ne_nil hne
    exact List.dropWhile_cons_of_neg (by simp [hkey k List.mem_cons_self])
  have hword : ∀ b ∈ key, (!isBlank b) = true := fun b hb => by rw [hkey b hb]; rfl
  have htake : (key ++ 9 :: c :: val).takeWhile (!isBlank ·) = key := by
    rw [List.takeWhile_append_of_pos hword, List.takeWhile_cons_of_neg (by decide), List.append_nil]
  have hdrop : ((key ++ 9 :: c :: val).dropWhile (!isBlank ·)).dropWhile isBlank = c :: val := by
    rw [List.dropWhile_append_of_pos hword, List.dropWhile_cons_of_neg (by decide),
      List.dropWhile_cons_of_pos (by decide), List.dropWhile_cons_of_neg (by simp [hc])]
  rw [lineEntry, hstart, if_neg (List.append_ne_nil_of_left_ne_nil hne _), htake, hdrop]
  exact if_neg (List.cons_ne_nil _ _)

theorem newline_notMem_line (hkey : ch '\n' ∉ key) (hval : IsLineValue val) :
    ch '\n' ∉ key ++ 9 :: val := by
  rw [List.mem_append, List.mem_cons, not_or, not_or]
  exact ⟨hkey, by decide, hval.newline_notMem⟩

/-- A line in front of others. -/
theorem lineEntries_tab {rest : Bytes} {entries : List (Bytes × Bytes)} (hne : key ≠ [])
    (hkey : ∀ b ∈ key, isBlank b = false) (hnl : ch '\n' ∉ key) (hval : IsLineValue val)
    (h : lineEntries (msgLines rest) = some entries) :
    lineEntries (msgLines (key ++ 9 :: val ++ ch '\n' :: rest)) = some ((key, val) :: entries) := by
  rw [msgLines_append (newline_notMem_line hnl hval), lineEntries_cons (lineEntry_tab hne hkey hval),
    h]
  rfl

/-- The line about the storage, if there is one. -/
def jppsLine : Option Bytes → Bytes
  | some jpps => ascii "jpps" ++ 9 :: jpps ++ ch '\n' :: []
  | none => []

/-- The lines of the message. -/
theorem uploadFilesMsg_eq (jobid archive proxy : Bytes) (jpps : Option Bytes) :
    uploadFilesMsg jobid archive proxy jpps =
      ascii "jobid" ++ 9 :: jobid ++ ch '\n' :: (ascii "file" ++ 9 :: archive ++ ch '\n' ::
        (ascii "proxy" ++ 9 :: proxy ++ ch '\n' :: jppsLine jpps)) := by
  have hjobid : ascii "jobid\t" = ascii "jobid" ++ [9] := rfl
  have hfile : ascii "\nfile\t" = ch '\n' :: (ascii "file" ++ [9]) := rfl
  have hproxy : ascii "\nproxy\t" = ch '\n' :: (ascii "proxy" ++ [9]) := rfl
  have hjpps : ascii "\njpps\t" = ch '\n' :: (ascii "jpps" ++ [9]) := rfl
  have hend : ascii "\n" = [ch '\n'] := rfl
  cases jpps <;>
    simp only [uploadFilesMsg, jppsLine, hjobid, hfile, hproxy, hjpps, hend, List.append_assoc,
      List.cons_append, List.nil_append]

/-- What the importer is to find in the message. -/
def uploadEntries (jobid archive proxy : Bytes) (jpps : Option Bytes) : List (Bytes × Bytes) :=
  [(ascii "jobid", jobid), (ascii "file", archive), (ascii "proxy", proxy)] ++
    (jpps.map fun jpps => (ascii "jpps", jpps)).toList

theorem lineEntries_uploadFilesMsg (hjobid : IsLineValue jobid) (harchive : IsLineValue archive)
    (hproxy : IsLineValue proxy) (hjpps : ∀ url ∈ jpps, IsLineValue url) :
    lineEntries (msgLines (uploadFilesMsg jobid archive proxy jpps)) =
      some (uploadEntries jobid archive proxy jpps) := by
  rw [uploadFilesMsg_eq]
  refine lineEntries_tab (by decide) (notBlank_of_any rfl) (by decide) hjobid ?_
  refine lineEntries_tab (by decide) (notBlank_of_any rfl) (by decide) harchive ?_
  refine lineEntries_tab (by decide) (notBlank_of_any rfl) (by decide) hproxy ?_
  cases jpps with
  | none => rfl
  | some jpps => exact lineEntries_tab (by decide) (notBlank_of_any rfl) (by decide) (hjpps jpps rfl) rfl

theorem nul_notMem_uploadFilesMsg (hjobid : IsLineValue jobid) (harchive : IsLineValue archive)
    (hproxy : IsLineValue proxy) (hjpps : ∀ url ∈ jpps, IsLineValue url) :
    0 ∉ uploadFilesMsg jobid archive proxy jpps := by
  have hkeys : 0 ∉ ascii "jobid" ∧ 0 ∉ ascii "file" ∧ 0 ∉ ascii "proxy" ∧ 0 ∉ ascii "jpps" ∧
      (0 : UInt8) ≠ ch '\n' := by decide
  have hline : 0 ∉ jppsLine jpps := by
    cases jpps with
    | none => exact List.not_mem_nil
    | some jpps => simp [jppsLine, hkeys, (hjpps jpps rfl).nul_notMem]
  rw [uploadFilesMsg_eq]
  simp [hkeys, hjobid.nul_notMem, harchive.nul_notMem, hproxy.nul_notMem, hline]

/-- The importer finds in the message what has been put there. -/
theorem reads_uploadFilesMsg (hjobid : IsLineValue jobid) (harchive : IsLineValue archive)
    (hproxy : IsLineValue proxy) (hjpps : ∀ url ∈ jpps, IsLineValue url) :
    ∃ buf tab, parseMsg (uploadFilesMsg jobid archive proxy jpps) msgPattern =
        .ok (some (buf, tab)) ∧
      msgValue buf tab (ascii "jobid") = some jobid ∧
      msgValue buf tab (ascii "file") = some archive ∧
      msgValue buf tab (ascii "proxy") = some proxy ∧ msgValue buf tab (ascii "jpps") = jpps := by
  obtain ⟨buf, places, hparse, hstand⟩ := parseMsg_of_entries
    (nul_notMem_uploadFilesMsg hjobid harchive hproxy hjpps)
    (lineEntries_uploadFilesMsg hjobid harchive hproxy hjpps) msgPattern
  have hunset : ∀ key ∈ msgPattern.map Prod.fst, msgValue buf msgPattern key = none := by
    simp only [msgPattern, List.map_cons, List.map_nil, List.forall_mem_cons]
    exact ⟨rfl, rfl, rfl, rfl, List.forall_mem_nil _⟩
  have hvalue : ∀ key ∈ msgPattern.map Prod.fst, msgValue buf (setEntries msgPattern places) key =
      lastValue (uploadEntries jobid archive proxy jpps) key := fun key hkey => by
    rw [msgValue_setEntries hstand hkey, hunset key hkey, Option.or_none]
  refine ⟨buf, _, hparse, ?_⟩
  rw [hvalue _ (by decide), hvalue _ (by decide), hvalue _ (by decide), hvalue _ (by decide)]
  cases jpps <;> exact ⟨rfl, rfl, rfl, rfl⟩

/-- A message with a path that has blanks in it. -/
theorem reads_uploadFilesMsg_sample :
    ∃ buf tab, parseMsg (uploadFilesMsg (ascii "https://lb/job") (ascii "/tmp/file a.tar")
        (ascii "/tmp/x509") none) msgPattern = .ok (some (buf, tab)) ∧
      msgValue buf tab (ascii "jobid") = some (ascii "https://lb/job") ∧
      msgValue buf tab (ascii "file") = some (ascii "/tmp/file a.tar") ∧
      msgValue buf tab (ascii "proxy") = some (ascii "/tmp/x509") ∧
      msgValue buf tab (ascii "jpps") = none :=
  reads_uploadFilesMsg ⟨by decide, by decide, by decide, fun _ h => Option.some.inj h ▸ rfl⟩
    ⟨by decide, by decide, by decide, fun _ h => Option.some.inj h ▸ rfl⟩
    ⟨by decide, by decide, by decide, fun _ h => Option.some.inj h ▸ rfl⟩ (fun _ h => nomatch h)

end Lines

end JobProvenance
