import Carving.Proofs.CarveHistory

/-!
# What the fates of the chunks say

Every chunk has the fate that the ledger before it decides (`explains_carvings`). So a chunk is
skipped exactly if one of the same digest was met before, and the others are the first ones of their
digests (`unskipped_eq`). A chunk changes one file at most: if its fate tells that something was
written, its content or a part of it is where its file goes (`settle_tree`). So what a place holds
behind some chunks was put there by the last one of them whose file goes there
(`content_after_last`), and every other place holds what it did (`content_after_of_untouched`).
-/

namespace Carving.Console

namespace Ledger

variable {digest : List UInt8 → List UInt8} {host : Host} {o : Options} {l : Ledger}
  {h h' before behind : List Carved} {e : Carved}

section Explained

variable (digest host o) in
/-- Every chunk has the fate that the ledger before it decides. -/
def Explains (l : Ledger) : List Carved → Prop
  | [] => True
  | e :: rest =>
    e.fate = l.fate digest host o e.name e.content ∧ (l.settle digest host o e).Explains rest

theorem explains_append : l.Explains digest host o (h ++ h')
    ↔ l.Explains digest host o h ∧ (l.after digest host o h).Explains digest host o h' := by
  induction h generalizing l with
  | nil => simp [Explains, after]
  | cons e h ih =>
    rw [List.cons_append, Explains, Explains, ih, and_assoc]
    rfl

/-- The fate of a chunk in the middle. -/
theorem Explains.fate_eq (hex : l.Explains digest host o (before ++ e :: behind)) :
    e.fate = (l.after digest host o before).fate digest host o e.name e.content :=
  (explains_append.1 hex).2.1

theorem Explains.exists_fate_eq (hex : l.Explains digest host o h) (he : e ∈ h) :
    ∃ met : Ledger, e.fate = met.fate digest host o e.name e.content := by
  obtain ⟨before, behind, rfl⟩ := List.append_of_mem he
  exact ⟨_, hex.fate_eq⟩

theorem explains_trail (path : OsText) (data : Array UInt8) (found : List Finding) :
    l.Explains digest host o (l.trail digest host o path data found) := by
  induction found generalizing l with
  | nil => trivial
  | cons f found ih => exact ⟨rfl, ih⟩

theorem explains_carvedIn (path : OsText) :
    l.Explains digest host o (l.carvedIn digest host o path) := by
  simp only [carvedIn]
  split
  · trivial
  · exact explains_trail _ _ _

theorem explains_history (paths : List OsText) :
    l.Explains digest host o (l.history digest host o paths) := by
  induction paths generalizing l with
  | nil => trivial
  | cons path paths ih => exact explains_append.2 ⟨explains_carvedIn path, ih⟩

end Explained

section Fate

variable {name : OsText} {content : List UInt8}

variable (digest host o) in
/-- The fates, each with what it takes. -/
theorem fate_cases (l : Ledger) (name : OsText) (content : List UInt8) :
    o.carve = false ∧ l.fate digest host o name content = .listed
    ∨ o.carve ∧ digest content ∈ l.seen ∧ l.fate digest host o name content = .skipped
    ∨ o.carve ∧ digest content ∉ l.seen ∧ o.dryRun
      ∧ l.fate digest host o name content = .proposed
    ∨ o.carve ∧ digest content ∉ l.seen ∧ o.dryRun = false
      ∧ (l.write host o name content).2 = none ∧ l.fate digest host o name content = .written
    ∨ o.carve ∧ digest content ∉ l.seen ∧ o.dryRun = false
      ∧ ∃ cause, (l.write host o name content).2 = some cause
        ∧ l.fate digest host o name content = .failed cause := by
  unfold fate
  by_cases hcarve : o.carve
  · by_cases hseen : digest content ∈ l.seen
    · simp [hcarve, hseen]
    · by_cases hdry : o.dryRun
      · simp [hcarve, hseen, hdry]
      · cases hwrite : (l.write host o name content).2 <;> simp [hcarve, hseen, hdry]
  · simp [hcarve]

theorem fate_eq_listed : l.fate digest host o name content = .listed ↔ o.carve = false := by
  rcases fate_cases digest host o l name content with ⟨hcarve, hfate⟩ | ⟨hcarve, -, hfate⟩
    | ⟨hcarve, -, -, hfate⟩ | ⟨hcarve, -, -, -, hfate⟩ | ⟨hcarve, -, -, cause, -, hfate⟩
  all_goals simp [hcarve, hfate]

theorem fate_eq_skipped (hcarve : o.carve) :
    l.fate digest host o name content = .skipped ↔ digest content ∈ l.seen := by
  rcases fate_cases digest host o l name content with ⟨hnot, -⟩ | ⟨-, hseen, hfate⟩
    | ⟨-, hseen, -, hfate⟩ | ⟨-, hseen, -, -, hfate⟩ | ⟨-, hseen, -, cause, -, hfate⟩
  · simp [hcarve] at hnot
  all_goals simp [hseen, hfate]

theorem fate_eq_written : l.fate digest host o name content = .written ↔ o.carve
    ∧ digest content ∉ l.seen ∧ o.dryRun = false ∧ (l.write host o name content).2 = none := by
  rcases fate_cases digest host o l name content with ⟨hcarve, hfate⟩ | ⟨-, hseen, hfate⟩
    | ⟨-, -, hdry, hfate⟩ | ⟨hcarve, hseen, hdry, hwrite, hfate⟩
    | ⟨-, -, -, cause, hwrite, hfate⟩
  all_goals simp [*]

theorem fate_eq_failed {cause : WriteError} :
    l.fate digest host o name content = .failed cause ↔ o.carve ∧ digest content ∉ l.seen
      ∧ o.dryRun = false ∧ (l.write host o name content).2 = some cause := by
  rcases fate_cases digest host o l name content with ⟨hcarve, hfate⟩ | ⟨-, hseen, hfate⟩
    | ⟨-, -, hdry, hfate⟩ | ⟨-, -, -, hwrite, hfate⟩
    | ⟨hcarve, hseen, hdry, cause, hwrite, hfate⟩
  all_goals simp [*]

/-- Behind a chunk of a run that carves, its digest is known. -/
theorem mem_seen_settle (hcarve : o.carve)
    (hfate : e.fate = l.fate digest host o e.name e.content) (d : List UInt8) :
    d ∈ (l.settle digest host o e).seen ↔ d ∈ l.seen ∨ digest e.content = d := by
  unfold settle
  cases he : e.fate with
  | listed =>
    rw [he] at hfate
    exact absurd hcarve (by simp [fate_eq_listed.1 hfate.symm])
  | skipped =>
    rw [he] at hfate
    have hseen := (fate_eq_skipped hcarve).1 hfate.symm
    exact ⟨.inl, fun h => h.elim id fun h => h ▸ hseen⟩
  | _ =>
    simp only [List.mem_cons]
    rw [or_comm, eq_comm]

theorem mem_seen_after (hcarve : o.carve) (hex : l.Explains digest host o h) (d : List UInt8) :
    d ∈ (l.after digest host o h).seen ↔ d ∈ l.seen ∨ ∃ e ∈ h, digest e.content = d := by
  induction h generalizing l with
  | nil => simp [after]
  | cons e h ih =>
    refine (ih hex.2).trans ?_
    rw [mem_seen_settle hcarve hex.1, or_assoc]
    simp

/-- A chunk is skipped exactly if one of the same digest came before it. -/
theorem skipped_iff (hcarve : o.carve)
    (hex : l.Explains digest host o (before ++ e :: behind)) : e.fate = .skipped
      ↔ digest e.content ∈ l.seen ∨ ∃ m ∈ before, digest m.content = digest e.content := by
  rw [hex.fate_eq, fate_eq_skipped hcarve, mem_seen_after hcarve (explains_append.1 hex).1]

theorem not_mem_seen_of_unskipped (hcarve : o.carve) (hex : l.Explains digest host o h) (he : e ∈ h)
    (hnew : e.fate ≠ .skipped) : digest e.content ∉ l.seen := by
  obtain ⟨before, behind, rfl⟩ := List.append_of_mem he
  exact fun hseen => hnew ((skipped_iff hcarve hex).2 (.inl hseen))

/-- No two chunks that are not skipped have one digest. -/
theorem pairwise_unskipped (hcarve : o.carve) (hex : l.Explains digest host o h) :
    (h.filter (·.fate ≠ .skipped)).Pairwise fun a b => digest a.content ≠ digest b.content := by
  induction h generalizing l with
  | nil => exact .nil
  | cons e h ih =>
    by_cases he : e.fate = .skipped
    · rw [List.filter_cons_of_neg (by simpa using he)]
      exact ih hex.2
    · rw [List.filter_cons_of_pos (by simpa using he)]
      refine .cons (fun m hm heq => ?_) (ih hex.2)
      obtain ⟨hm, hnew⟩ := List.mem_filter.1 hm
      refine not_mem_seen_of_unskipped hcarve hex.2 hm (by simpa using hnew) ?_
      exact (mem_seen_settle hcarve hex.1 _).2 (.inr heq)

/-- The chunks that are not skipped are the first ones of their digests. -/
theorem unskipped_eq (hcarve : o.carve) (hex : l.Explains digest host o h) :
    h.filter (·.fate ≠ .skipped) = (h.filter (digest ·.content ∉ l.seen)).eraseDupsBy
      fun a b => digest a.content = digest b.content := by
  induction h generalizing l with
  | nil => rfl
  | cons e h ih =>
    obtain ⟨hfate, hrest⟩ := hex
    have hseen : e.fate = .skipped ↔ digest e.content ∈ l.seen := by
      rw [hfate, fate_eq_skipped hcarve]
    have hknown := fun a : Carved => mem_seen_settle hcarve hfate (digest a.content)
    rw [List.filter_cons, List.filter_cons, ih hrest]
    by_cases he : digest e.content ∈ l.seen
    · have hsame : h.filter (digest ·.content ∉ (l.settle digest host o e).seen)
          = h.filter (digest ·.content ∉ l.seen) := by
        refine List.filter_congr fun a _ => ?_
        rw [decide_eq_decide, hknown]
        exact not_congr ⟨fun ha => ha.elim id fun ha => ha ▸ he, .inl⟩
      rw [hsame, if_neg (by simp [hseen.2 he]), if_neg (by simp [he])]
    · have hfirst : h.filter (digest ·.content ∉ (l.settle digest host o e).seen)
          = (h.filter (digest ·.content ∉ l.seen)).filter
            fun a => decide (digest a.content = digest e.content) = false := by
        rw [List.filter_filter]
        refine List.filter_congr fun a _ => ?_
        rw [← Bool.decide_and, decide_eq_decide, hknown, not_or, decide_eq_false_iff_not, eq_comm,
          and_comm]
      rw [hfirst, if_pos (by simp [hseen, he]), if_pos (by simp [he]), List.eraseDupsBy_cons]

end Fate

end Ledger


section Changes

/-- The write of a chunk of this fate put something where its file goes. -/
def Fate.touches : Fate → Bool
  | .written | .failed (.fileNotWritten _) => true
  | _ => false

/-- The place where the file of a chunk goes. -/
def Carved.place (o : Options) (t : FileTree) (e : Carved) : Location :=
  t.behind (t.place o.output ++ [e.name])

/-- The second tree is the first one with the output directory made and something put where the file
of a chunk goes: its content if it is written, and otherwise a part of it. -/
structure Puts (o : Options) (t : FileTree) (e : Carved) (u : FileTree) : Prop where
  made : u.makeDirectories o.output none = (u, some (t.place o.output))
  free : t.isFile (e.place o t) → o.force
  name_short : e.name.length ≤ maxNameSize
  target_short : (e.target o).length ≤ maxPathSize
  content : ∃ stored, (e.fate = .written → stored = e.content.toArray)
    ∧ ∀ p, u.content? p = if p = e.place o t then some stored else t.content? p

variable {o : Options} {t u : FileTree} {e : Carved} {p : Location}

theorem FileTree.content?_of_files_eq (h : u.files = t.files) (p : Location) :
    u.content? p = t.content? p := by
  rw [content?, h, content?]

theorem Carved.place_eq (h : t.Extends u) (e : Carved) : e.place o u = e.place o t := by
  rw [place, h.place_eq, h.behind_eq, place]

theorem Puts.content_of_ne (hp : Puts o t e u) (h : p ≠ e.place o t) :
    u.content? p = t.content? p := by
  obtain ⟨stored, -, hcontent⟩ := hp.content
  rw [hcontent, if_neg h]

theorem Puts.content_of_written (hp : Puts o t e u) (h : e.fate = .written) :
    u.content? (e.place o t) = some e.content.toArray := by
  obtain ⟨stored, hstored, hcontent⟩ := hp.content
  rw [hcontent, if_pos rfl, hstored h]

theorem Puts.isFile (hp : Puts o t e u) (h : p = e.place o t ∨ t.isFile p) : u.isFile p := by
  obtain ⟨stored, -, hcontent⟩ := hp.content
  rw [FileTree.isFile, hcontent]
  split
  · rfl
  · exact h.resolve_left ‹_›

namespace Ledger

variable {digest : List UInt8 → List UInt8} {host : Host} {l : Ledger}
  {h before behind : List Carved}

variable (o digest host) in
theorem extends_settle (l : Ledger) (e : Carved) :
    l.tree.Extends (l.settle digest host o e).tree := by
  unfold settle
  cases e.fate with
  | written | failed => exact writeFile_extends (Prod.eta _).symm
  | _ => exact .refl _

theorem isNavigable_settle (ht : l.tree.IsNavigable) (e : Carved) :
    (l.settle digest host o e).tree.IsNavigable := by
  unfold settle
  cases e.fate with
  | written | failed => exact ht.writeFile (Prod.eta _).symm
  | _ => exact ht

/-- A write leaves all files as they are, or puts something where the file of the chunk goes. -/
theorem puts_of_write {failure : Option WriteError}
    (hfailure : (l.write host o e.name e.content).2 = failure)
    (hfate : e.fate = match failure with
      | none => .written
      | some cause => .failed cause) :
    e.fate.touches = false ∧ (l.write host o e.name e.content).1.files = l.tree.files
      ∨ e.fate.touches ∧ Puts o l.tree e (l.write host o e.name e.content).1 := by
  have hwrite : writeFile l.tree o.force o.output e.name e.content.toArray _ = (_, failure) :=
    Prod.ext rfl hfailure
  obtain ⟨cause, rfl, hcause, htree⟩
      | ⟨u, location, stored, hmade, hopen, hname, htarget, htree, hend⟩ := writeFile_cases hwrite
  · refine .inl ⟨?_, ?_⟩
    · rw [hfate]
      cases cause with
      | fileNotWritten path => exact absurd rfl (hcause path)
      | _ => rfl
    · rw [show (l.write host o e.name e.content).1 = _ from htree]
      exact FileTree.makeDirectories_files _ _ _
  · obtain rfl := FileTree.makeDirectories_place hmade
    have hextends := FileTree.makeDirectories_extends l.tree o.output none
    have hfiles := FileTree.makeDirectories_files l.tree o.output none
    rw [hmade] at hextends hfiles
    have hplace : u.behind (l.tree.place o.output ++ [e.name]) = e.place o l.tree :=
      hextends.behind_eq _
    rw [hplace] at hopen htree
    have htouches : e.fate.touches := by
      rcases hend with ⟨rfl, -⟩ | ⟨rfl, -⟩ <;> rw [hfate] <;> rfl
    have hwritten : e.fate = .written → stored = e.content.toArray := fun h => by
      rcases hend with ⟨-, hstored⟩ | ⟨rfl, -⟩
      · exact hstored
      · rw [hfate] at h
        cases h
    rw [show (l.write host o e.name e.content).1 = _ from htree]
    refine .inr ⟨htouches, ?_, fun hfile => ?_, hname, htarget, stored, hwritten, fun p => ?_⟩
    · exact FileTree.makeDirectories_again hmade (FileTree.extends_put _ _ _)
    · rw [FileTree.isFile, ← FileTree.content?_of_files_eq hfiles] at hfile
      exact hopen.free (by rw [FileTree.occupied, FileTree.isFile, hfile]; rfl)
    · rw [FileTree.content?_put, FileTree.content?_of_files_eq hfiles]

/-- What a chunk does to the tree. -/
theorem settle_tree (hfate : e.fate = l.fate digest host o e.name e.content) :
    e.fate.touches = false ∧ (l.settle digest host o e).tree.files = l.tree.files
      ∨ e.fate.touches ∧ Puts o l.tree e (l.settle digest host o e).tree := by
  unfold settle
  cases he : e.fate with
  | written =>
    rw [he] at hfate
    obtain ⟨-, -, -, hnone⟩ := fate_eq_written.1 hfate.symm
    have hcases := puts_of_write hnone he
    rwa [he] at hcases
  | failed cause =>
    rw [he] at hfate
    obtain ⟨-, -, -, hsome⟩ := fate_eq_failed.1 hfate.symm
    have hcases := puts_of_write hsome he
    rwa [he] at hcases
  | _ => exact .inl ⟨rfl, rfl⟩

variable (o digest host) in
theorem extends_after (l : Ledger) (h : List Carved) :
    l.tree.Extends (l.after digest host o h).tree := by
  induction h generalizing l with
  | nil => exact .refl _
  | cons e h ih => exact (extends_settle o digest host l e).trans (ih _)

theorem isNavigable_after (ht : l.tree.IsNavigable) (h : List Carved) :
    (l.after digest host o h).tree.IsNavigable := by
  induction h generalizing l with
  | nil => exact ht
  | cons e h ih => exact ih (isNavigable_settle ht e)

/-- A place to which no chunk has put anything is as it was. -/
theorem content_after_of_untouched (hex : l.Explains digest host o h)
    (hp : ∀ e ∈ h, e.fate.touches → e.place o l.tree ≠ p) :
    (l.after digest host o h).tree.content? p = l.tree.content? p := by
  induction h generalizing l with
  | nil => rfl
  | cons e h ih =>
    obtain ⟨hone, hrest⟩ := List.forall_mem_cons.1 hp
    refine (ih hex.2 fun m hm htouches => ?_).trans ?_
    · rw [m.place_eq (extends_settle o digest host l e)]
      exact hrest m hm htouches
    · obtain ⟨-, hfiles⟩ | ⟨htouches, hputs⟩ := settle_tree hex.1
      · exact FileTree.content?_of_files_eq hfiles p
      · exact hputs.content_of_ne (hone htouches).symm

theorem isFile_after (hex : l.Explains digest host o h) (hp : l.tree.isFile p) :
    (l.after digest host o h).tree.isFile p := by
  induction h generalizing l with
  | nil => exact hp
  | cons e h ih =>
    refine ih hex.2 ?_
    obtain ⟨-, hfiles⟩ | ⟨-, hputs⟩ := settle_tree hex.1
    · rwa [FileTree.isFile, FileTree.content?_of_files_eq hfiles]
    · exact hputs.isFile (.inr hp)

/-- What the ledger is in the middle of some chunks. -/
theorem after_append_cons (l : Ledger) (before behind : List Carved) (e : Carved) :
    l.after digest host o (before ++ e :: behind)
      = ((l.after digest host o before).settle digest host o e).after digest host o behind := by
  rw [after, List.foldl_append]
  rfl

section Middle

variable (hex : l.Explains digest host o (before ++ e :: behind))
include hex

/-- What a chunk in the middle that put something did to the tree. -/
theorem Explains.puts (htouches : e.fate.touches) : Puts o (l.after digest host o before).tree e
    ((l.after digest host o before).settle digest host o e).tree := by
  obtain ⟨hnot, -⟩ | ⟨-, hputs⟩ := settle_tree hex.fate_eq
  · rw [htouches] at hnot
    cases hnot
  · exact hputs

/-- The file of a chunk that was written holds its content, unless a later one put something there.
-/
theorem content_after_last (hwritten : e.fate = .written)
    (hlast : ∀ m ∈ behind, m.fate.touches → m.place o l.tree ≠ e.place o l.tree) :
    (l.after digest host o (before ++ e :: behind)).tree.content? (e.place o l.tree)
      = some e.content.toArray := by
  have hputs := hex.puts (by rw [hwritten]; rfl)
  have hextends := extends_after o digest host l before
  have hsettled := hextends.trans (extends_settle o digest host _ e)
  rw [after_append_cons, content_after_of_untouched (explains_append.1 hex).2.2]
  · rw [← e.place_eq hextends]
    exact hputs.content_of_written hwritten
  · intro m hm htouches
    rw [m.place_eq hsettled]
    exact hlast m hm htouches

theorem isFile_place_after (htouches : e.fate.touches) :
    (l.after digest host o (before ++ e :: behind)).tree.isFile (e.place o l.tree) := by
  have hextends := extends_after o digest host l before
  rw [after_append_cons]
  refine isFile_after (explains_append.1 hex).2.2 ((hex.puts htouches).isFile (.inl ?_))
  exact (e.place_eq hextends).symm

/-- The path of a chunk that put something leads to where its file goes. -/
theorem locate_target (ht : l.tree.IsNavigable) (htouches : e.fate.touches)
    (hname : IsProper e.name) :
    (l.after digest host o (before ++ e :: behind)).tree.locate (e.target o)
      = .ok (e.place o l.tree) := by
  have hputs := hex.puts htouches
  have hfile := isFile_place_after hex htouches
  have hextends := extends_after o digest host l before
  have hbehind := extends_after o digest host l
    (before ++ e :: behind)
  have hmade := FileTree.makeDirectories_again hputs.made
    (extends_after o digest host _ behind)
  rw [← after_append_cons, hextends.place_eq] at hmade
  have hplace : (l.after digest host o (before ++ e :: behind)).tree.behind
      (l.tree.place o.output ++ [e.name]) = e.place o l.tree := hbehind.behind_eq _
  rw [← hplace]
  refine FileTree.locate_joinPath (isNavigable_after ht _) hmade hname hputs.target_short ?_
  rw [FileTree.occupied, hplace, hfile]
  rfl

end Middle

/-- Without leave to overwrite no two chunks put something at one place. -/
theorem pairwise_places (hforce : o.force = false) (hex : l.Explains digest host o h) :
    (h.filter (·.fate.touches)).Pairwise fun a b => a.place o l.tree ≠ b.place o l.tree := by
  induction h generalizing l with
  | nil => exact .nil
  | cons e h ih =>
    have hextends := extends_settle o digest host l e
    have hrest := ih hex.2
    simp only [Carved.place_eq hextends] at hrest
    by_cases htouches : e.fate.touches
    · rw [List.filter_cons_of_pos (by simpa using htouches)]
      refine .cons (fun m hm heq => ?_) hrest
      obtain ⟨hm, hmtouches⟩ := List.mem_filter.1 hm
      obtain ⟨before, behind, rfl⟩ := List.append_of_mem hm
      -- The file of the first chunk is there when that of the second one is to be written.
      have hfile : (l.settle digest host o e).tree.isFile (e.place o l.tree) := by
        rw [← List.nil_append (e :: _)] at hex
        exact (hex.puts htouches).isFile (.inl rfl)
      have hthere := isFile_after (explains_append.1 hex.2).1 hfile
      have hagain := hextends.trans (extends_after o digest host _ before)
      have hfree := (hex.2.puts hmtouches).free
      rw [m.place_eq hagain, ← heq, hforce] at hfree
      exact absurd (hfree hthere) (by simp)
    · rw [List.filter_cons_of_neg (by simpa using htouches)]
      exact hrest

end Ledger

end Changes

section Written

variable {h h' : List Carved} {e : Carved}

/-- The chunks that are written. -/
def written (h : List Carved) : List Carved := h.filter (·.fate = .written)

theorem mem_written : e ∈ written h ↔ e ∈ h ∧ e.fate = .written := by
  rw [written, List.mem_filter, decide_eq_true_eq]

theorem written_eq_nil (hnone : .written ∉ h.map Carved.fate) : written h = [] :=
  List.filter_eq_nil_iff.2 fun _ hm => by
    rw [decide_eq_true_eq]
    exact fun hwritten => hnone (List.mem_map.2 ⟨_, hm, hwritten⟩)

end Written

theorem explains_carvings (digest : List UInt8 → List UInt8) (host : Host) (o : Options)
    (t : FileTree) : Ledger.Explains digest host o ⟨t, []⟩ (carvings digest host o t) :=
  Ledger.explains_history _

end Carving.Console
