import UiWorkspace.Proofs.Markup.HandlerRenaming
import UiWorkspace.Proofs.Script.NamePlaces
import UiWorkspace.Proofs.Workspace.Reachable

/-! The edits that rename a member. Each of them stands where a kept script or document names the
member, and no two of them touch the same text. -/
namespace UiWorkspace.Edit

theorem sameSite_comm (e f : Edit) : sameSite e f = sameSite f e := by
  rw [sameSite, sameSite, FilePath.beq_comm e.path, BEq.comm (a := e.span)]

theorem dedup_go (kept es : List Edit) :
    (∀ e ∈ dedup.go kept es, e ∈ es ∧ ∀ k ∈ kept, sameSite e k = false) ∧
      (dedup.go kept es).Pairwise fun e f => sameSite e f = false := by
  induction es generalizing kept with
  | nil => exact ⟨nofun, .nil⟩
  | cons e es ih =>
    unfold dedup.go
    split
    · obtain ⟨hmem, hpairwise⟩ := ih kept
      exact ⟨fun f hf => ⟨List.mem_cons_of_mem e (hmem f hf).1, (hmem f hf).2⟩, hpairwise⟩
    next hnew =>
      obtain ⟨hmem, hpairwise⟩ := ih (e :: kept)
      refine ⟨List.forall_mem_cons.2 ⟨⟨List.mem_cons_self, fun k hk => ?_⟩, fun f hf => ?_⟩, ?_⟩
      · simpa using fun h => hnew (List.any_eq_true.2 ⟨k, hk, h⟩)
      · obtain ⟨hf, hkept⟩ := hmem f hf
        exact ⟨List.mem_cons_of_mem e hf, (List.forall_mem_cons.1 hkept).2⟩
      · refine .cons (fun f hf => ?_) hpairwise
        rw [sameSite_comm]
        exact (hmem f hf).2 e List.mem_cons_self

end UiWorkspace.Edit

namespace UiWorkspace.Workspace

open UiWorkspace.Markup
open UiWorkspace.Script
open UiWorkspace.Text

/-- A text that a workspace keeps: the script behind a known class, or a document. -/
inductive KeptText where
  | script (c : ClassDefinition) (source : ProjectSource)
  | markup (d : Document)

namespace KeptText

def path : KeptText → FilePath
  | script _ source => source.path
  | markup d => d.path

def content : KeptText → String
  | script _ source => source.text
  | markup d => d.content

def IsIn (w : Workspace) : KeptText → Prop
  | script c source => w.classes.lookup c.name = some c ∧ c.source? = some source
  | markup d => d ∈ w.documents

/-- Where the text names a member: declarations of it and accesses in a script, handlers in a
document. -/
def places (name : String) : KeptText → List Span
  | script c source =>
    (c.members.filter fun m => m.name == name).filterMap Member.declaration? ++
      (accessesTo source name).filterMap fun n => (n.part? .property).map Node.span
  | markup d => (d.handlers.filter fun r => r.name == name).map HandlerReference.span

/-- The same content of the same file, under whatever class names it is known. -/
def SameText : KeptText → KeptText → Prop
  | script _ source, script _ other => source.path = other.path ∧ source.text = other.text
  | markup d, markup other => d.path = other.path ∧ d.content = other.content
  | _, _ => False

theorem SameText.path {t u : KeptText} (h : t.SameText u) : t.path = u.path := by
  cases t <;> cases u
  · exact h.1
  · exact h.elim
  · exact h.elim
  · exact h.1

theorem IsIn.learned {w v : Workspace} (h : Learned w v) (hsorted : SortedByPath w.documents)
    {t : KeptText} (ht : t.IsIn w) : t.IsIn v := by
  cases t with
  | script c source =>
    refine ⟨?_, ht.2⟩
    rcases h.classes c.name with hsame | ⟨hnone, -⟩
    · rw [hsame]
      exact ht.1
    · rw [ht.1] at hnone
      cases hnone
  | markup d =>
    have hkept : v.cachedDocument? d.path = some d := h.kept (hsorted.find?_of_mem ht)
    exact List.mem_of_find?_eq_some hkept

end KeptText

def MadeOfScripts (w : Workspace) : Prop := ∀ name c, w.classes.lookup name = some c → MadeOfScript c

theorem MadeOfScripts.lasting : Lasting MadeOfScripts where
  congr h hclasses _ name c hc := h name c (hclasses ▸ hc)
  putClass w c hmade h name c' hc := by
    change (Table.put c.name c w.classes).lookup name = some c' at hc
    rw [Table.lookup_put] at hc
    split at hc
    · cases hc
      exact hmade
    · exact h name c' hc
  removeClass w removed h name c hc := by
    change (Table.erase removed w.classes).lookup name = some c at hc
    rw [Table.lookup_erase] at hc
    split at hc
    · cases hc
    · exact h name c hc
  clearClasses _ _ := nofun
  putDocument _ _ h := h
  dropDocument _ _ h := h
  clearDocuments _ h := h

theorem Reachable.madeOfScripts {w : Workspace} (h : Reachable w) : MadeOfScripts w :=
  MadeOfScripts.lasting.holds (fun _ hclasses _ _ _ hc => by simp [hclasses] at hc) h

namespace KeptText

theorem namedAt_of_mem_places {c : ClassDefinition} {source : ProjectSource} (hmade : MadeOfScript c)
    (hsource : c.source? = some source) {name : String} {r : Span}
    (hr : r ∈ (script c source).places name) : NamedAt source.text (parse source.text) name r := by
  have W := wellPlaced_parse source.text
  have hc := hmade source hsource
  rcases List.mem_append.1 hr with hr | hr
  · obtain ⟨m, hm, hr⟩ := List.mem_filterMap.1 hr
    obtain ⟨hm, hname⟩ := List.mem_filter.1 hm
    rw [hc] at hm
    simp only [ClassDefinition.ofScript] at hm
    rw [← beq_iff_eq.1 hname]
    exact declaredIn_classOfTree W c.name m hm r hr
  · obtain ⟨n, hn, hr⟩ := List.mem_filterMap.1 hr
    obtain ⟨property, hproperty, rfl⟩ := Option.map_eq_some_iff.1 hr
    have htree : source.tree = parse source.text := by
      rw [hc] at hsource
      exact (congrArg ProjectSource.tree (Option.some.inj hsource)).symm
    obtain ⟨hn, haccess⟩ := List.mem_filter.1 hn
    obtain ⟨hmember, hname⟩ := Bool.and_eq_true_iff.1 haccess
    rw [hproperty, Option.any_some, beq_iff_eq] at hname
    rw [htree] at hn
    rw [← hname]
    exact W.namedAt_access hn hmember hproperty

variable {w : Workspace} (hmade : MadeOfScripts w) {t u : KeptText} (ht : t.IsIn w) {name : String}

include hmade ht

theorem slice_of_mem_places {r : Span} (hr : r ∈ t.places name) : r.slice t.content = some name := by
  cases t with
  | script c source =>
    obtain ⟨_, _, _, _, hslice⟩ := namedAt_of_mem_places (hmade c.name c ht.1) ht.2 hr
    exact hslice
  | markup d =>
    obtain ⟨reference, hreference, rfl⟩ := List.mem_map.1 hr
    obtain ⟨hreference, hname⟩ := List.mem_filter.1 hreference
    rw [← beq_iff_eq.1 hname]
    exact (handlerReferences_placed d.content).1 reference hreference

theorem apart_of_mem_places (hu : u.IsIn w) (hsame : t.SameText u) {r q : Span}
    (hr : r ∈ t.places name) (hq : q ∈ u.places name) (hne : r ≠ q) : r.Apart q := by
  cases t with
  | script c source =>
    cases u with
    | script c' other =>
      have hq := namedAt_of_mem_places (hmade c'.name c' hu.1) hu.2 hq
      rw [← hsame.2] at hq
      have hr := namedAt_of_mem_places (hmade c.name c ht.1) ht.2 hr
      exact (wellPlaced_parse source.text).apart_of_namedAt hr hq hne
    | markup d => exact hsame.elim
  | markup d =>
    cases u with
    | script c other => exact hsame.elim
    | markup other =>
      have hcontent : other.content = d.content := hsame.2.symm
      have hplaces : places name (markup other) = places name (markup d) := by
        simp only [places, Document.handlers, Document.tags, hcontent]
      have hapart : (places name (markup d)).Pairwise Span.Apart :=
        List.pairwise_map.2 (((handlerReferences_placed d.content).2.imp .inl).filter _)
      have : Std.Symm Span.Apart := ⟨fun _ _ => Span.Apart.symm⟩
      exact hapart.forall hr (hplaces ▸ hq) hne

end KeptText

/-- The edit puts a new name in one of the places where the text names the member. -/
structure Renames (t : KeptText) (name newName : String) (e : Edit) : Prop where
  path : e.path = t.path
  span : e.span ∈ t.places name
  text : e.text = newName

theorem answers_memberAccess? (c : ClassDefinition) (n : Node) :
    Answers (memberAccess? c n) fun access? => ∀ access, access? = some access →
      ∃ property, n.part? .property = some property ∧ access.span = property.span := by
  unfold memberAccess?
  split
  next source object property _ _ hproperty =>
    refine .after fun type? => ?_
    split
    · exact .ret nofun
    · refine .after fun walk => ?_
      refine .ret fun access haccess => ⟨property, hproperty, ?_⟩
      rw [← Option.some.inj haccess]
  next => exact .ret nofun

theorem answers_accessEdits (target : RenameTarget) (newName : String) (c : ClassDefinition)
    (path : FilePath) (accesses : List Node) :
    Answers (accessEdits target newName c path accesses) fun es => ∀ e ∈ es, ∃ n ∈ accesses,
      ∃ property, n.part? .property = some property ∧ e = ⟨path, property.span, newName⟩ := by
  induction accesses with
  | nil => exact .ret nofun
  | cons n ns ih =>
    refine (answers_memberAccess? c n).bind fun access? haccess => ?_
    refine ih.bind fun rest hrest => ?_
    have hlater : ∀ e ∈ rest, ∃ m ∈ n :: ns, ∃ property, m.part? .property = some property ∧
        e = ⟨path, property.span, newName⟩ := fun e he =>
      let ⟨m, hm, hfound⟩ := hrest e he
      ⟨m, List.mem_cons_of_mem n hm, hfound⟩
    split
    next access hfound =>
      obtain ⟨property, hproperty, hspan⟩ := haccess access (Option.filter_eq_some_iff.1 hfound).1
      refine .ret (List.forall_mem_cons.2 ⟨⟨n, List.mem_cons_self, property, hproperty, ?_⟩, hlater⟩)
      rw [hspan]
    next => exact .ret hlater

theorem answers_scriptEdits (target : RenameTarget) (newName : String) (classes : List ClassDefinition) :
    Answers (scriptEdits target newName classes) fun es => ∀ e ∈ es, ∃ c ∈ classes, ∃ source,
      c.source? = some source ∧ Renames (.script c source) target.member newName e := by
  induction classes with
  | nil => exact .ret nofun
  | cons c cs ih =>
    have hlater : ∀ es : List Edit, (∀ e ∈ es, ∃ c' ∈ cs, ∃ source, c'.source? = some source ∧
        Renames (.script c' source) target.member newName e) →
        ∀ e ∈ es, ∃ c' ∈ c :: cs, ∃ source, c'.source? = some source ∧
          Renames (.script c' source) target.member newName e := fun es h e he =>
      let ⟨c', hc, hfound⟩ := h e he
      ⟨c', List.mem_cons_of_mem c hc, hfound⟩
    unfold scriptEdits
    split
    · exact fun w => hlater _ (ih w)
    next source hsource =>
      refine (answers_accessEdits target newName c source.path _).bind fun es hes => ?_
      refine ih.bind fun rest hrest => ?_
      refine .ret (List.forall_mem_append.2 ⟨fun e he => ?_, hlater rest hrest⟩)
      obtain ⟨n, hn, property, hproperty, rfl⟩ := hes e he
      refine ⟨c, List.mem_cons_self, source, hsource, rfl, List.mem_append_right _ ?_, rfl⟩
      exact List.mem_filterMap.2 ⟨n, hn, by rw [hproperty, Option.map_some]⟩

theorem answers_handlerEditsIn (declaring name newName : String) (entries : List (String × Document)) :
    Answers (handlerEditsIn declaring name newName entries) fun es => ∀ e ∈ es, ∃ entry ∈ entries,
      Renames (.markup entry.2) name newName e := by
  induction entries with
  | nil => exact .ret nofun
  | cons entry rest ih =>
    obtain ⟨controller, d⟩ := entry
    have hlater : ∀ es : List Edit, (∀ e ∈ es, ∃ entry ∈ rest, Renames (.markup entry.2) name newName e) →
        ∀ e ∈ es, ∃ entry ∈ (controller, d) :: rest, Renames (.markup entry.2) name newName e :=
      fun es h e he =>
        let ⟨entry, hentry, hfound⟩ := h e he
        ⟨entry, List.mem_cons_of_mem _ hentry, hfound⟩
    refine .after fun _ => ?_
    dsimp only
    split
    · exact fun w => hlater _ (ih w)
    · refine .after fun walk => ?_
      refine ih.bind fun es hes => ?_
      refine .ret (List.forall_mem_append.2 ⟨fun e he => ?_, hlater es hes⟩)
      split at he
      · obtain ⟨r, hr, rfl⟩ := List.mem_map.1 he
        exact ⟨_, List.mem_cons_self, rfl, List.mem_map.2 ⟨r, hr, rfl⟩, rfl⟩
      · cases he

theorem answers_withController (ds : List Document) :
    Answers (withController ds) fun entries => ∀ entry ∈ entries, entry.2 ∈ ds := by
  induction ds with
  | nil => exact .ret nofun
  | cons d ds ih =>
    refine .after fun controller? => ?_
    refine ih.bind fun rest hrest => ?_
    have hlater : ∀ entry ∈ rest, entry.2 ∈ d :: ds := fun entry he => List.mem_cons_of_mem d (hrest entry he)
    split
    · exact .ret (List.forall_mem_cons.2 ⟨List.mem_cons_self, hlater⟩)
    · exact .ret hlater

def FoundIsKnown (walk : Hierarchy.Walk) (w : Workspace) : Prop :=
  ∀ c index, walk.found? = some (c, index) → w.classes.lookup c.name = some c

theorem gives_class? (name : String) :
    Gives Orderly (class? name) fun found? w =>
      Orderly w ∧ ∀ c, found? = some c → w.classes.lookup c.name = some c := by
  intro w hw
  have hafter : Orderly (class? name w).2 := (Orderly.lasting.upheld.requests.class? name).keeps hw
  refine ⟨hafter, fun c hc => ?_⟩
  have hlookup : (class? name w).2.classes.lookup name = some c := by
    obtain ⟨probes, builds, hrun⟩ := class?_run name w
    rw [hrun] at hc ⊢
    change (w.classesWith name).lookup name = some c
    rw [lookup_classesWith, if_pos rfl]
    exact hc
  rw [hafter.filed name c hlookup]
  exact hlookup

theorem gives_findThrough {rootClass member : String} {goOn : List String → String → Query Hierarchy.Walk}
    (hgoOn : ∀ visited name, Gives Orderly (goOn visited name) FoundIsKnown) (visited : List String)
    (name : String) :
    Gives Orderly (Hierarchy.findThrough class? rootClass member goOn visited name) FoundIsKnown := by
  unfold Hierarchy.findThrough
  split
  · exact .ret fun _ _ => nofun
  · refine (gives_class? name).bind fun found? => ?_
    split
    · exact .ret fun _ _ => nofun
    next c =>
      split
      · refine .ret fun w hw c' index h => ?_
        cases h
        exact hw.2 c rfl
      · split
        · split
          · exact .ret fun _ _ => nofun
          · exact fun w hw => hgoOn _ _ w hw.1
        · exact .ret fun _ _ => nofun

theorem gives_findMember (className member : String) :
    Gives Orderly (findMember className member) FoundIsKnown := by
  have hfrom : ∀ rootClass hops visited name,
      Gives Orderly (Hierarchy.findFrom class? rootClass member hops visited name) FoundIsKnown := by
    intro rootClass hops
    induction hops with
    | zero => exact gives_findThrough fun _ _ => .ret fun _ _ => nofun
    | succ hops ih => exact gives_findThrough ih
  exact fun w hw => hfrom _ _ _ _ w hw

theorem exists_source_of_targetOf? {c : ClassDefinition} {m : Member} {target : RenameTarget}
    (h : targetOf? c m = some target) : ∃ source span, c.source? = some source ∧
      m.declaration? = some span ∧ target = ⟨c.name, m.name, source.path, span⟩ := by
  obtain ⟨path, hpath, h⟩ := Option.bind_eq_some_iff.1 h
  obtain ⟨span, hspan, h⟩ := Option.bind_eq_some_iff.1 h
  obtain ⟨source, hsource, rfl⟩ := Option.map_eq_some_iff.1 hpath
  exact ⟨source, span, hsource, hspan, (Option.some.inj h).symm⟩

theorem gives_prepareRename (path : FilePath) (offset : Nat) (newName : String) :
    Gives Orderly (prepareRename path offset) fun result w => ∀ target, result = .ok target →
      ∃ t : KeptText, t.IsIn w ∧
        Renames t target.member newName ⟨target.path, target.span, newName⟩ := by
  have hreference := Orderly.lasting.upheld.requests.referenceAt? path offset
  refine (respects_subjectAt hreference).gives.bind fun subject => ?_
  split
  · exact .ret fun _ _ => nofun
  · refine (gives_findMember _ _).bind fun walk => ?_
    dsimp only
    split
    next target htarget =>
      refine .ret fun w hw target' h => ?_
      cases h
      obtain ⟨⟨c, m⟩, hfound, htarget⟩ := Option.bind_eq_some_iff.1 htarget
      obtain ⟨⟨c', index⟩, hwalk, hfound⟩ := Option.bind_eq_some_iff.1 hfound
      obtain ⟨m', hm, hfound⟩ := Option.bind_eq_some_iff.1 hfound
      cases hfound
      obtain ⟨source, span, hsource, hspan, rfl⟩ := exists_source_of_targetOf? htarget
      refine ⟨.script c source, ⟨hw c index hwalk, hsource⟩, rfl, List.mem_append_left _ ?_, rfl⟩
      exact List.mem_filterMap.2 ⟨m, List.mem_filter.2 ⟨List.mem_of_getElem? hm, beq_self_eq_true _⟩, hspan⟩
    next => exact .ret fun _ _ => nofun

/-- Every edit of a renaming stands in a text that is kept afterwards. -/
theorem renames_of_mem_rename {w : Workspace} (hw : Orderly w) {target : RenameTarget} {newName : String}
    {t : KeptText} (ht : t.IsIn w)
    (htarget : Renames t target.member newName ⟨target.path, target.span, newName⟩) :
    ∀ e ∈ (rename target newName w).1, ∃ t : KeptText, t.IsIn (rename target newName w).2 ∧
      Renames t target.member newName e := by
  intro e he
  let known := w.projectClassNames.filterMap fun name => w.classes.lookup name
  let u := (scriptEdits target newName known w).2
  have hwu : Learned w u := ((Learned.indistinguishable w).scriptEdits target newName known).keeps (.refl w)
  have hu : Orderly u := (Orderly.lasting.upheld.requests.scriptEdits target newName known).keeps hw
  have hafter : Learned u (rename target newName w).2 :=
    ((Learned.indistinguishable u).handlerEdits target.className target.member newName).keeps (.refl u)
  have hkept : ∀ {t : KeptText}, t.IsIn w → t.IsIn (rename target newName w).2 := fun ht =>
    (ht.learned hwu hw.sorted).learned hafter hu.sorted
  rcases List.mem_cons.1 ((Edit.dedup_go [] _).1 e he).1 with rfl | he
  · exact ⟨t, hkept ht, htarget⟩
  · rcases List.mem_append.1 he with he | he
    · obtain ⟨c, hc, source, hsource, hrenames⟩ := answers_scriptEdits target newName known w e he
      obtain ⟨name, -, hlookup⟩ := List.mem_filterMap.1 hc
      have hname : w.classes.lookup c.name = some c := by rw [hw.filed name c hlookup, hlookup]
      exact ⟨.script c source, hkept ⟨hname, hsource⟩, hrenames⟩
    · obtain ⟨entry, hentry, hrenames⟩ := answers_handlerEditsIn _ _ _ _ _ e he
      have hd : entry.2 ∈ u.documents := answers_withController u.documents u entry hentry
      exact ⟨.markup entry.2, KeptText.IsIn.learned (t := .markup entry.2) hafter hu.sorted hd, hrenames⟩

/-- A renaming edits the declaration. Every edit replaces the old name by the new one, in a script or
document that is kept; no two edits replace the same range of a file, and two edits of one text do not
overlap. -/
theorem rename_replaces_names {w : Workspace} (hw : Reachable w) {path : FilePath} {offset : Nat}
    {target : RenameTarget} (htarget : (prepareRename path offset w).1 = .ok target) (newName : String) :
    let edits := (rename target newName (prepareRename path offset w).2).1
    let after := (rename target newName (prepareRename path offset w).2).2
    ⟨target.path, target.span, newName⟩ ∈ edits ∧
      (∀ e ∈ edits, ∃ t : KeptText, t.IsIn after ∧ Renames t target.member newName e ∧
        e.span.slice t.content = some target.member) ∧
      edits.Pairwise fun e f => Edit.sameSite e f = false ∧
        ∀ t u : KeptText, t.IsIn after → u.IsIn after → t.SameText u →
          Renames t target.member newName e → Renames u target.member newName f →
          e.span.Apart f.span := by
  have hprepared : Reachable (prepareRename path offset w).2 := .asked (.prepareRename path offset) hw
  obtain ⟨t, ht, hdeclared⟩ := gives_prepareRename path offset newName w hw.orderly target htarget
  generalize (prepareRename path offset w).2 = w at *
  have hmade : MadeOfScripts (rename target newName w).2 :=
    Reachable.madeOfScripts (.asked (.rename target newName) hprepared)
  refine ⟨List.mem_cons_self, fun e he => ?_, (Edit.dedup_go [] _).2.imp fun {e f} hsite => ⟨hsite, ?_⟩⟩
  · obtain ⟨t, ht, hrenames⟩ := renames_of_mem_rename hprepared.orderly ht hdeclared e he
    exact ⟨t, ht, hrenames, KeptText.slice_of_mem_places hmade ht hrenames.span⟩
  · intro t u ht hu hsame he hf
    refine KeptText.apart_of_mem_places hmade ht hu hsame he.span hf.span fun hspan => ?_
    have hpath : e.path = f.path := he.path.trans (hsame.path.trans hf.path.symm)
    rw [Edit.sameSite, hpath, hspan, FilePath.beq_self, beq_self_eq_true] at hsite
    cases hsite

def sampleNamed : Workspace :=
  let files : List (FilePath × String) :=
    [(⟨"/app/C.js"⟩, "return B.extend(\"App.C\", \x7b \"on\": function () \x7b this.on(); \x7d \x7d);"),
      (⟨"/app/C.view.xml"⟩, "<View controllerName=\"App.C\" press=\".on\"/>")]
  let w := new { Settings.builtIn with cacheEnabled := false } (.memory files) none []
  let w := (handle (.changed ⟨"/app/manifest.json"⟩ "\x7b\"sap.app\":\x7b\"id\":\"App\"\x7d\x7d") w).2
  let w := (handle (.created ⟨"/app/C.js"⟩) w).2
  (handle (.created ⟨"/app/C.view.xml"⟩) w).2

theorem sampleNamed_reachable : Reachable sampleNamed := by
  unfold sampleNamed
  exact .notified _ (.notified _ (.notified _ (.opened _ _ _ _)))

theorem rename_replaces_names_sample :
    ∃ target, (prepareRename ⟨"/app/C.view.xml"⟩ 37 sampleNamed).1 = .ok target ∧
      let edits := (rename target "tap" (prepareRename ⟨"/app/C.view.xml"⟩ 37 sampleNamed).2).1
      let after := (rename target "tap" (prepareRename ⟨"/app/C.view.xml"⟩ 37 sampleNamed).2).2
      edits.map (fun e => (e.path.text, e.span)) =
          [("/app/C.js", ⟨28, 30⟩), ("/app/C.js", ⟨52, 54⟩), ("/app/C.view.xml", ⟨37, 39⟩)] ∧
        ∀ e ∈ edits, ∃ t : KeptText, t.IsIn after ∧ Renames t "on" "tap" e ∧
          e.span.slice t.content = some "on" := by
  have hedits : ((prepareRename ⟨"/app/C.view.xml"⟩ 37 sampleNamed).1.toOption.map fun target =>
      (target.member, (rename target "tap" (prepareRename ⟨"/app/C.view.xml"⟩ 37 sampleNamed).2).1.map
        fun e => (e.path.text, e.span))) =
      some ("on", [("/app/C.js", ⟨28, 30⟩), ("/app/C.js", ⟨52, 54⟩), ("/app/C.view.xml", ⟨37, 39⟩)]) := by
    decide +kernel
  have hreachable := sampleNamed_reachable
  generalize sampleNamed = w at *
  generalize hprepared : (prepareRename ⟨"/app/C.view.xml"⟩ 37 w).1 = prepared at hedits
  cases prepared with
  | error _ => cases hedits
  | ok target =>
    obtain ⟨hmember, hedits⟩ := Prod.mk.inj (Option.some.inj hedits)
    obtain ⟨-, hreplaces, -⟩ := rename_replaces_names hreachable hprepared "tap"
    rw [hmember] at hreplaces
    exact ⟨target, rfl, hedits, hreplaces⟩

end UiWorkspace.Workspace
