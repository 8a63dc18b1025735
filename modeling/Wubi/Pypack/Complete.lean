import Wubi.Pypack.Packable

/-!
# When the output is complete

Where the modules are `Packable`, each is placed at its own `spot`: no file lies
where a directory is to be made, the copy that is compiled and removed is no
other module's file, and no two places are the same. What is tried before a
module's own file is then not there, so that the import finds it.

**Results.** `addDependencies_complete_iff`: the packing comes to its end with a
complete output if and only if the modules are `Packable`. A module that is there
as bytecode alone is dropped (`not_complete_bytecodeOnly`).
-/
namespace Wubi.Pypack

open Import

variable {app : App} {ms : Modules} {m e : Node}

/-! ## The places -/

theorem App.letter_ne_nil (app : App) : app.letter ≠ [] := by
  rcases app.letter_cases with h | h
  · simp [h]
  · simp [h]

theorem App.append_letter_ne (app : App) (x y : Str) : x ++ app.letter ≠ y ++ dotPy := by
  intro h
  have hlast := congrArg List.getLast? h
  rcases app.letter_cases with hletter | hletter
  · simp [hletter, dotPy_eq] at hlast
  · simp [hletter, dotPy_eq] at hlast

theorem App.append_letter_ne_lib (app : App) (x : Str) : x ++ app.letter ≠ libName := by
  intro h
  have hlast := congrArg List.getLast? h
  rcases app.letter_cases with hletter | hletter
  · simp [hletter, libName] at hlast
  · simp [hletter, libName] at hlast

theorem Node.dir_ne_nil (hs : m.isScript = false) : m.dir ≠ [] := by
  by_cases hk : m.isPackage = true
  · rw [(Node.dir_package hk).1]
    exact List.cons_ne_nil _ _
  · rw [(Node.dir_module hs hk).1]
    exact List.cons_ne_nil _ _

theorem Node.dir_script (hs : m.isScript) : m.dir = [] := by
  cases m with
  | script f => rfl
  | named k i f => cases hs

theorem App.copyName_script (hs : m.isScript) : app.copyName m = app.script.basename := by
  cases m with
  | script f => rfl
  | named k i f => cases hs

/-- The directory and the name of another module's file, which is no script's. -/
theorem App.spot_eq (hs : m.isScript = false) {c : Str} (hspot : app.spot e = m.dir ++ [c]) :
    e.isScript = false ∧ e.dir = m.dir ∧ app.fileName e = c := by
  obtain ⟨hdir, hname⟩ := List.append_inj' hspot rfl
  refine ⟨?_, hdir, by simpa using hname⟩
  by_contra hes
  rw [Node.dir_script (by simpa using hes)] at hdir
  exact Node.dir_ne_nil hs hdir.symm

namespace Packable

variable (hp : Packable app ms)
include hp

theorem dot_mem (hm : m ∈ ms.nodes) (hw : m.wanted) (hs : m.isScript = false) :
    '.' ∈ app.fileName m :=
  App.dot_mem_fileName hs (fun he f hf => hp.suffix m hm hw he f hf) hw

theorem not_regular_target (hm : m ∈ ms.nodes) (hw : m.wanted) (he : ¬ m.isExtension) :
    ¬ Regular (app.target m) := by
  intro hreg
  cases hs : m.isScript with
  | false => exact hreg.no_dot (App.dot_mem_copyName (by simp [hs]) he)
  | true =>
    rw [App.target, Node.dir_script hs, App.copyName_script hs] at hreg
    exact hp.script m hm hw hs hreg.eq_libName

theorem not_regular_spot (hm : m ∈ ms.nodes) (hw : m.wanted) : ¬ Regular (app.spot m) := by
  intro hreg
  cases hs : m.isScript with
  | false => exact hreg.no_dot (hp.dot_mem hm hw hs)
  | true =>
    have he : ¬ m.isExtension := by
      intro he
      rw [Node.isScript_of_isExtension he] at hs
      cases hs
    rw [App.spot, App.fileName_eq he, Node.dir_script hs, App.copyName_script hs] at hreg
    have hname := hreg.eq_libName
    split at hname
    · exact app.append_letter_ne_lib _ hname
    · exact hp.script m hm hw hs hname

/-- Two modules are not looked for under one name in one directory. -/
theorem eq_of_stem (hm : m ∈ ms.nodes) (hmw : m.wanted) (hms : m.isScript = false)
    (he : e ∈ ms.nodes) (hew : e.wanted) (hes : e.isScript = false) (hdir : m.dir = e.dir)
    (hstem : m.stem = e.stem) : m = e := by
  have hmf := (Node.wanted_iff.1 hmw).1
  have hef := (Node.wanted_iff.1 hew).1
  -- a package and a module beside its `__init__` would be the two
  have hmixed : ∀ P x : Node, P.isPackage → x ∈ ms.nodes → x.wanted → x.isScript = false →
      ¬ x.isPackage → P.dir = x.dir → P.stem = x.stem → False := by
    intro P x hPk hx hxw hxs hxk hd hst
    obtain ⟨hPdir, hPstem⟩ := Node.dir_package hPk
    obtain ⟨hxdir, hxstem⟩ := Node.dir_module hxs hxk
    rw [hPdir, hxdir] at hd
    rw [hPstem, hxstem] at hst
    obtain ⟨q, n, hq⟩ := P.exists_parts
    have hne : x.parts.dropLast ≠ [] := by
      rw [← List.append_cancel_left hd, hq]
      simp
    exact hp.init x hx hxw hxs hne hst.symm
  by_cases hmk : m.isPackage = true
  · by_cases hek : e.isPackage = true
    · rw [(Node.dir_package hmk).1, (Node.dir_package hek).1] at hdir
      exact ms.eq_of_parts hm he hmf hef (List.append_cancel_left hdir)
    · exact (hmixed m e hmk he hew hes hek hdir hstem).elim
  · by_cases hek : e.isPackage = true
    · exact (hmixed e m hek hm hmw hms hmk hdir.symm hstem.symm).elim
    · rw [(Node.dir_module hms hmk).1, (Node.dir_module hes hek).1] at hdir
      rw [(Node.dir_module hms hmk).2, (Node.dir_module hes hek).2] at hstem
      obtain ⟨q, n, hq⟩ := m.exists_parts
      obtain ⟨r, x, hr⟩ := e.exists_parts
      have hdrop := List.append_cancel_left hdir
      rw [hq, hr] at hdrop hstem
      refine ms.eq_of_parts hm he hmf hef ?_
      rw [hq, hr]
      simpa using And.intro hdrop hstem

theorem fileName_mem (hm : m ∈ ms.nodes) (hw : m.wanted) (hs : m.isScript = false) :
    app.fileName m ∈ app.suffixes.names m.stem := by
  by_cases he : m.isExtension = true
  · obtain ⟨f, hf⟩ := Option.isSome_iff_exists.1 (Node.wanted_iff.1 hw).1
    rw [App.fileName_extension he hf]
    exact hp.suffix m hm hw he f hf
  · rw [App.fileName_source hs he]
    exact Suffixes.mem_names.2 ⟨_, app.own_mem, rfl⟩

/-- The file at a name that is tried for a module, up to its own, is its own. -/
theorem eq_of_tried (hm : m ∈ ms.nodes) (hmw : m.wanted) (hms : m.isScript = false)
    (he : e ∈ ms.nodes) (hew : e.wanted) {c : Str} (hc : c ∈ app.suffixes.names m.stem)
    (hin : c ∈ app.suffixes.tried m.stem (app.fileName m) ++ [app.fileName m])
    (hspot : app.spot e = m.dir ++ [c]) : e = m := by
  obtain ⟨hes, hdir, hname⟩ := App.spot_eq hms hspot
  by_contra hne
  by_cases hext : e.isExtension = true
  · exact hp.apart m hm e he hmw hew hms hne ⟨hext, hdir, hname ▸ hin⟩
  · rw [← hname, App.fileName_source hes hext] at hc
    have hstem := Suffixes.eq_of_names hc (Node.stem_no_dot hms) (Node.stem_no_dot hes)
      app.own_cases
    exact hne (hp.eq_of_stem he hew hes hm hmw hms hdir hstem.symm)

/-- No two modules have one place. -/
theorem spot_inj (hm : m ∈ ms.nodes) (hmw : m.wanted) (he : e ∈ ms.nodes) (hew : e.wanted)
    (hspot : app.spot e = app.spot m) : e = m := by
  have hmodule : ∀ x y : Node, x ∈ ms.nodes → x.wanted → x.isScript = false → y ∈ ms.nodes →
      y.wanted → app.spot y = app.spot x → y = x := fun x y hx hxw hxs hy hyw heq =>
    hp.eq_of_tried hx hxw hxs hy hyw (hp.fileName_mem hx hxw hxs) (by simp) heq
  cases hms : m.isScript with
  | false => exact hmodule m e hm hmw hms he hew hspot
  | true =>
    cases hes : e.isScript with
    | false => exact (hmodule e m he hew hes hm hmw hspot.symm).symm
    | true => exact ms.oneScript e he m hm hes hms

/-- The copy that is compiled, and then removed, is no module's file. -/
theorem spot_ne_target (hm : m ∈ ms.nodes) (hmw : m.wanted) (hmx : ¬ m.isExtension)
    (he : e ∈ ms.nodes) (hew : e.wanted) (hbyte : app.bytecompile = true) :
    app.spot e ≠ app.target m := by
  intro hspot
  cases hms : m.isScript with
  | true =>
    have hdir : e.dir = [] := by
      obtain ⟨hdir, -⟩ := List.append_inj' hspot rfl
      rw [hdir, Node.dir_script hms]
    have hes : e.isScript = true := by
      by_contra hes
      exact Node.dir_ne_nil (by simpa using hes) hdir
    obtain rfl := ms.oneScript e he m hm hes hms
    obtain ⟨-, hname⟩ := List.append_inj' hspot rfl
    rw [App.fileName_eq hmx, if_pos hbyte] at hname
    exact app.letter_ne_nil (by simpa using hname)
  | false =>
    rw [App.target, App.copyName_source hms hmx] at hspot
    obtain ⟨hes, hdir, hname⟩ := App.spot_eq hms hspot
    by_cases hext : e.isExtension = true
    · have hmem := hp.fileName_mem he hew hes
      rw [hname] at hmem
      have hstem := Suffixes.eq_of_names hmem (Node.stem_no_dot hes) (Node.stem_no_dot hms)
        (.inl rfl)
      obtain rfl := hp.eq_of_stem he hew hes hm hmw hms hdir hstem
      exact hmx hext
    · rw [App.fileName_source hes hext, App.own, if_pos hbyte, ← app.dotPy_letter,
        ← List.append_assoc] at hname
      exact app.append_letter_ne _ _ hname

end Packable

/-! ## The run -/

/-- A compilation whose directory can be made, and whose names are no
directories, comes to its end and leaves one file more. -/
theorem exists_compile {b : Build} {s n : Str} {dir : Path} (m : Node) (hd : Dirs b.disk)
    (hdir : Regular dir) (hmade : (dir, true) ∈ b.disk.makedirs dir) (hs : app.copies s = true)
    (hc : app.bytecompile = true → app.compiles s = true) (hn : ¬ Regular (dir ++ [n]))
    (hl : app.bytecompile = true → ¬ Regular (dir ++ [n ++ app.letter]))
    (hfree : app.bytecompile = true → (dir ++ [n], false) ∉ b.disk) :
    ∃ b', compile app b m s (dir ++ [n]) = some b' ∧
      b'.log = b.log ++ [(m, dir ++ [if app.bytecompile then n ++ app.letter else n])] ∧
      ∀ p, (p, false) ∈ b'.disk ↔ (p, false) ∈ b.disk ∨
        p = dir ++ [if app.bytecompile then n ++ app.letter else n] := by
  have hdirs := hd.makedirs hdir
  have hnot : (dir ++ [n], true) ∉ b.disk.makedirs dir := fun h => hn (hdirs.regular _ h)
  obtain ⟨d, hw⟩ := Disk.exists_write hnot (by simpa using hmade)
  have hcopy : copy app (b.disk.makedirs dir) s (dir ++ [n]) = some (d, dir ++ [n]) := by
    simp [copy, hnot, hs, hw]
  have hfiles : ∀ p, (p, false) ∈ d ↔ (p, false) ∈ b.disk ∨ p = dir ++ [n] := by
    intro p
    simp [Disk.mem_write hw, Disk.mem_makedirs_file]
  unfold compile
  rw [dirname, List.dropLast_concat, hcopy]
  by_cases hbyte : app.bytecompile = true
  · have hdirs' := hdirs.write hw
    have hnot' : (dir ++ [n ++ app.letter], true) ∉ d :=
      fun h => hl hbyte (hdirs'.regular _ h)
    have hparent : ((dir ++ [n ++ app.letter]).dropLast, true) ∈ d := by
      rw [List.dropLast_concat]
      exact (Disk.mem_write hw).2 (.inl hmade)
    obtain ⟨d', hw'⟩ := Disk.exists_write hnot' hparent
    have hpy : pyCompile app d s (dir ++ [n]) = some d' := by
      rw [pyCompile, if_pos ⟨(hfiles _).2 (.inr rfl), hc hbyte⟩, addEnding_concat, hw']
    simp only [hbyte, if_true, hpy, Option.map_some, addEnding_concat]
    refine ⟨_, rfl, rfl, fun p => ?_⟩
    simp only [Disk.mem_remove, Disk.mem_write hw', hfiles, Prod.mk.injEq, and_true]
    constructor
    · intro h
      obtain ⟨(hin | hp) | hp, hne⟩ := h
      · exact .inl hin
      · exact absurd hp hne
      · exact .inr hp
    · intro h
      rcases h with hin | rfl
      · refine ⟨.inl (.inl hin), ?_⟩
        rintro rfl
        exact hfree hbyte hin
      · refine ⟨.inr rfl, fun heq => app.letter_ne_nil ?_⟩
        simpa using heq
  · simp only [if_neg hbyte]
    exact ⟨_, rfl, rfl, hfiles⟩

/-- The build behind the modules `done`, in an orderly run. -/
structure Tidy (app : App) (b : Build) (done : List Node) : Prop where
  dirs : Dirs b.disk
  files : ∀ p, (p, false) ∈ b.disk ↔ ∃ m ∈ done, m.wanted ∧ p = app.spot m
  log : b.log = (done.filter Node.wanted).map fun m => (m, app.spot m)

theorem tidy_created (app : App) : Tidy app ⟨created, []⟩ [] where
  dirs := Dirs.created
  files p := by simp [created]
  log := rfl

namespace Packable

variable (hp : Packable app ms) {b : Build} {done : List Node}
include hp

/-- The directory of a module can be made: no file is in the way. -/
theorem mem_makedirs_dir (hb : Tidy app b done) (hdone : ∀ e ∈ done, e ∈ ms.nodes) (m : Node) :
    (m.dir, true) ∈ b.disk.makedirs m.dir := by
  refine Disk.mem_makedirs hb.dirs.root fun q hq hfile => ?_
  obtain ⟨e, he, hew, rfl⟩ := (hb.files q).1 hfile
  exact hp.not_regular_spot (hdone e he) hew ((regular_dir m).above hq)

/-- Each wanted module is placed at its spot. -/
theorem exists_add (hb : Tidy app b done) (hdone : ∀ e ∈ done, e ∈ ms.nodes) (hm : m ∈ ms.nodes)
    (hw : m.wanted) :
    ∃ b', add app b m = some b' ∧ b'.log = b.log ++ [(m, app.spot m)] ∧
      ∀ p, (p, false) ∈ b'.disk ↔ (p, false) ∈ b.disk ∨ p = app.spot m := by
  obtain ⟨f, hf⟩ := Option.isSome_iff_exists.1 (Node.wanted_iff.1 hw).1
  obtain ⟨hcopies, hcompiles⟩ := hp.readable m hm hw f hf
  have hmade := hp.mem_makedirs_dir hb hdone m
  by_cases he : m.isExtension = true
  · have hspot : app.spot m = m.dir ++ [f.basename] := by
      rw [App.spot, App.fileName_extension he hf]
    have hdirs := hb.dirs.makedirs (regular_dir m)
    have hnot : (m.dir ++ [f.basename], true) ∉ b.disk.makedirs m.dir := by
      rw [← hspot]
      exact fun h => hp.not_regular_spot hm hw (hdirs.regular _ h)
    obtain ⟨d, hwrite⟩ := Disk.exists_write hnot (by simpa using hmade)
    have hcopy : copy app (b.disk.makedirs m.dir) f m.dir = some (d, m.dir ++ [f.basename]) := by
      simp [copy, hmade, hcopies, hwrite]
    rw [add_extension hf he, hcopy, hspot]
    refine ⟨_, rfl, rfl, fun p => ?_⟩
    simp [Disk.mem_write hwrite, Disk.mem_makedirs_file]
  · rw [add_compile hf hw (hp.known m hm hw) he, App.spot, App.fileName_eq he]
    refine exists_compile m hb.dirs (regular_dir m) hmade hcopies (fun h => hcompiles h he)
      (hp.not_regular_target hm hw he) (fun hbyte => ?_) (fun hbyte hfile => ?_)
    · have hspot := hp.not_regular_spot hm hw
      rwa [App.spot, App.fileName_eq he, if_pos hbyte] at hspot
    · obtain ⟨e, hed, hew, heq⟩ := (hb.files _).1 hfile
      exact hp.spot_ne_target hm hw he (hdone e hed) hew hbyte heq.symm

theorem tidy_add (hb : Tidy app b done) (hdone : ∀ e ∈ done, e ∈ ms.nodes) (hm : m ∈ ms.nodes) :
    ∃ b', add app b m = some b' ∧ Tidy app b' (done ++ [m]) := by
  by_cases hw : m.wanted = true
  · obtain ⟨b', hadd, hlog, hfiles⟩ := hp.exists_add hb hdone hm hw
    refine ⟨b', hadd, (add_sound hb.dirs hadd).1, fun p => ?_, ?_⟩
    · rw [hfiles, hb.files]
      simp [or_and_right, exists_or, hw]
    · rw [hlog, hb.log]
      simp [hw]
  · have hskip : add app b m = some b := add_skip fun h => hw h.1
    refine ⟨b, hskip, hb.dirs, fun p => ?_, ?_⟩
    · rw [hb.files]
      simp [or_and_right, exists_or, hw]
    · rw [hb.log]
      simp [hw]

/-- The loop comes to its end, with each wanted module at its spot. -/
theorem tidy_addModules (hb : Tidy app b done) (hdone : ∀ e ∈ done, e ∈ ms.nodes)
    {rest : List Node} (hrest : ∀ e ∈ rest, e ∈ ms.nodes) :
    ∃ b', addModules app b rest = some b' ∧ Tidy app b' (done ++ rest) := by
  induction rest generalizing b done with
  | nil => exact ⟨b, rfl, by simpa using hb⟩
  | cons m rest ih =>
    have hm := hrest m List.mem_cons_self
    obtain ⟨b₁, hadd, hb₁⟩ := hp.tidy_add hb hdone hm
    have hdone₁ : ∀ e ∈ done ++ [m], e ∈ ms.nodes := by
      intro e he
      rcases List.mem_append.1 he with he | he
      · exact hdone e he
      · exact List.mem_singleton.1 he ▸ hm
    obtain ⟨b', hrun, hb'⟩ := ih hb₁ hdone₁ fun e he => hrest e (List.mem_cons_of_mem m he)
    refine ⟨b', ?_, by simpa using hb'⟩
    rw [addModules, hadd, Option.bind_some, hrun]

end Packable

/-! ## What import finds -/

theorem Tidy.mem_files {b : Build} {done : List Node} (hb : Tidy app b done) {p : Path} :
    p ∈ b.disk.files ↔ ∃ m ∈ done, m.wanted ∧ p = app.spot m := by
  rw [Disk.mem_files, hb.files]

theorem Tidy.mem_log {b : Build} {done : List Node} (hb : Tidy app b done) {p : Path} :
    (m, p) ∈ b.log ↔ m ∈ done ∧ m.wanted ∧ p = app.spot m := by
  rw [hb.log, List.mem_map]
  constructor
  · intro h
    obtain ⟨e, he, heq⟩ := h
    cases heq
    obtain ⟨hin, hw⟩ := List.mem_filter.1 he
    exact ⟨hin, hw, rfl⟩
  · intro h
    obtain ⟨hin, hw, rfl⟩ := h
    exact ⟨m, List.mem_filter.2 ⟨hin, hw⟩, rfl⟩

theorem Tidy.isPackage {b : Build} {done : List Node} (hb : Tidy app b done) (P : Node)
    (hP : P ∈ done) (hw : P.wanted) (hk : P.isPackage) :
    Import.isPackage app.suffixes b.disk.files (libDir ++ P.parts) = true :=
  App.isPackage_of_spot hk (hb.mem_files.2 ⟨P, hP, hw, rfl⟩)

/-- A directory in which a module lies is that of a package. -/
theorem Modules.exists_package_of_dir {q : Path} (he : e ∈ ms.nodes) (hw : e.wanted)
    (hs : e.isScript = false) (hq : q ≠ []) (hdir : e.dir = libDir ++ q) :
    ∃ P ∈ ms.nodes, P.wanted ∧ P.isPackage ∧ P.parts = q := by
  by_cases hk : e.isPackage = true
  · rw [(Node.dir_package hk).1] at hdir
    exact ⟨e, he, hw, hk, List.append_cancel_left hdir⟩
  · rw [(Node.dir_module hs hk).1] at hdir
    obtain rfl := List.append_cancel_left hdir
    exact ms.exists_package he (Node.wanted_iff.1 hw).1 hs hq List.prefix_rfl

namespace Packable

variable (hp : Packable app ms) {b : Build} (hb : Tidy app b ms.nodes)
include hp hb

/-- What a module is looked for under is not the name of a package besides. -/
theorem stem_not_package (hm : m ∈ ms.nodes) (hw : m.wanted) (hs : m.isScript = false) :
    Import.isPackage app.suffixes b.disk.files (m.dir ++ [m.stem]) = false := by
  by_contra hpkg
  obtain ⟨c, hin⟩ : ∃ c, m.dir ++ [m.stem] ++ [c] ∈ b.disk.files := by
    rw [Bool.not_eq_false, Import.isPackage, decide_eq_true_eq] at hpkg
    rcases hpkg with hin | hin
    · exact ⟨_, hin⟩
    · exact ⟨_, hin⟩
  obtain ⟨e, he, hew, heq⟩ := hb.mem_files.1 hin
  obtain ⟨hdir, -⟩ := List.append_inj' heq rfl
  have hes : e.isScript = false := by
    by_contra hes
    rw [Node.dir_script (m := e) (by simpa using hes)] at hdir
    simp at hdir
  by_cases hk : m.isPackage = true
  · obtain ⟨hmdir, hmstem⟩ := Node.dir_package hk
    rw [hmdir, hmstem, List.append_assoc] at hdir
    obtain ⟨P, hP, hPw, hPk, hparts⟩ :=
      ms.exists_package_of_dir he hew hes (by simp) hdir.symm
    obtain ⟨q, n, hq⟩ := m.exists_parts
    exact hp.init P hP hPw (Node.isScript_of_isPackage hPk) (by simp [hparts, hq])
      (by simp [hparts])
  · obtain ⟨hmdir, hmstem⟩ := Node.dir_module hs hk
    obtain ⟨q, n, hq⟩ := m.exists_parts
    have hself : m.dir ++ [m.stem] = libDir ++ m.parts := by
      rw [hmdir, hmstem, hq]
      simp
    rw [hself] at hdir
    obtain ⟨P, hP, hPw, hPk, hparts⟩ :=
      ms.exists_package_of_dir he hew hes (by simp [hq]) hdir.symm
    obtain rfl := ms.eq_of_parts hP hm (Node.wanted_iff.1 hPw).1 (Node.wanted_iff.1 hw).1 hparts
    exact hk hPk

theorem loads (hm : m ∈ ms.nodes) (hw : m.wanted) (hs : m.isScript = false) :
    Loads app.suffixes b.disk.files m.dir m.stem (app.spot m) := by
  refine (loads_file_iff (Node.stem_no_dot hs) (hp.dot_mem hm hw hs)).2
    ⟨hp.stem_not_package hb hm hw hs, hp.fileName_mem hm hw hs,
      hb.mem_files.2 ⟨m, hm, hw, rfl⟩, fun c hc hin => ?_⟩
  obtain ⟨e, he, hew, heq⟩ := hb.mem_files.1 hin
  have hnames : c ∈ app.suffixes.names m.stem := (List.takeWhile_sublist _).subset hc
  obtain rfl := hp.eq_of_tried hm hw hs he hew hnames (List.mem_append_left _ hc) heq.symm
  -- a name that is tried before the module's own is not its own
  have hown : app.fileName e = c := by simpa [App.spot] using heq.symm
  have hne := List.mem_takeWhile_imp hc
  simp [hown] at hne

theorem located (hm : m ∈ ms.nodes) (hw : m.wanted) : Located app b m (app.spot m) := by
  refine ⟨(hb.files _).2 ⟨m, hm, hw, rfl⟩, ?_⟩
  cases hs : m.isScript with
  | true => simp [App.spot, Node.dir_script hs]
  | false =>
    simp only [Bool.false_eq_true, if_false]
    exact (ms.imports_iff hm hw hs hb.isPackage).2 (hp.loads hb hm hw hs)

theorem complete : Complete app ms b where
  placed m hm hw := by
    refine ⟨app.spot m, fun q => ?_, hp.located hb hm hw⟩
    rw [hb.mem_log]
    exact ⟨fun h => h.2.2, fun h => ⟨hm, hw, h⟩⟩
  distinct := by
    rw [hb.log, List.map_map]
    have hnodup : (ms.nodes.filter Node.wanted).Nodup := by
      have hsub : ∀ m : Node, m.wanted → m.file.isSome := fun m h => (Node.wanted_iff.1 h).1
      exact ms.distinct.of_map.sublist (List.monotone_filter_right _ hsub)
    refine hnodup.map_on fun m hm e he heq => ?_
    obtain ⟨hm, hmw⟩ := List.mem_filter.1 hm
    obtain ⟨he, hew⟩ := List.mem_filter.1 he
    exact (hp.spot_inj hm hmw he hew heq.symm).symm
  nothingElse p := by
    rw [hb.files]
    refine exists_congr fun m => and_congr_right fun hm => and_congr_right fun hw => ?_
    rw [hb.mem_log]
    exact ⟨fun h => ⟨hm, hw, h⟩, fun h => h.2.2⟩

end Packable

/-- The packing comes to its end with a complete output if and only if the
modules can be packed. -/
theorem addDependencies_complete_iff (app : App) (ms : Modules) :
    (∃ b, addDependencies app ms = some b ∧ Complete app ms b) ↔ Packable app ms := by
  constructor
  · intro h
    obtain ⟨b, hrun, hcomplete⟩ := h
    exact hcomplete.packable hrun
  · intro hp
    obtain ⟨b, hrun, hb⟩ := hp.tidy_addModules (tidy_created app) (by simp) fun e he => he
    exact ⟨b, hrun, hp.complete hb⟩

/-- `python pypack main.py`, where every file can be read. -/
def windowsApp : App where
  suffixes := ⟨[['.', 'p', 'y', 'd']], [['.', 'p', 'y', 'w']], false, by
    intro s hs
    simp only [List.cons_append, List.nil_append, List.mem_cons, List.not_mem_nil, or_false] at hs
    rcases hs with rfl | rfl
    · exact ⟨[], ['p', 'y', 'd'], rfl, List.not_mem_nil, by decide⟩
    · exact ⟨[], ['p', 'y', 'w'], rfl, List.not_mem_nil, by decide⟩⟩
  script := ['m', 'a', 'i', 'n', '.', 'p', 'y']
  script_name := by decide
  bytecompile := false
  copies _ := true
  compiles _ := true

/-- A script and a package `p` with a module and an extension. -/
def packageModules : Modules where
  nodes := [.script ['C', ':', '\\', 'm', 'a', 'i', 'n', '.', 'p', 'y'],
    .named .package ['p'] (some ['C', ':', '\\', 'p', '\\', '_', '.', 'p', 'y']),
    .named .source ['p', '.', 'q'] (some ['C', ':', '\\', 'p', '\\', 'q', '.', 'p', 'y']),
    .named .extension ['p', '.', 'r'] (some ['C', ':', '\\', 'p', '\\', 'r', '.', 'p', 'y', 'd'])]
  distinct := by decide
  dotted := by decide
  inPackage := by decide
  oneScript := by decide

example : Packable windowsApp packageModules := by
  constructor <;> decide

/-- A script and a module `foo`, of which there is only `foo.pyc`. -/
def bytecodeOnly : Modules where
  nodes := [.script ['C', ':', '\\', 'm', 'a', 'i', 'n', '.', 'p', 'y'],
    .named .compiled ['f', 'o', 'o'] (some ['C', ':', '\\', 'f', 'o', 'o', '.', 'p', 'y', 'c'])]
  distinct := by decide
  dotted := by decide
  inPackage := by decide
  oneScript := by decide

/-- A module that there is only as bytecode is dropped. -/
theorem not_complete_bytecodeOnly :
    ¬ ∀ (app : App) (ms : Modules), ∃ b, addDependencies app ms = some b ∧ Complete app ms b := by
  intro hall
  obtain ⟨b, hrun, h⟩ := hall windowsApp bytecodeOnly
  obtain ⟨p, honly, -⟩ := h.placed _ (List.mem_cons_of_mem _ List.mem_cons_self) (by decide)
  exact not_mem_log_of_unknown hrun (by decide) p ((honly p).2 rfl)

end Wubi.Pypack
