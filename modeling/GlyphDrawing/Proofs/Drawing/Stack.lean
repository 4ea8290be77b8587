import GlyphDrawing.Pen.PathPen
import GlyphDrawing.Pen.StrokePen
import GlyphDrawing.Proofs.Drawing.Calls

/-!
# Drawing through a stack of maps

A drawing cannot see what becomes of its calls but for the replies, so the row of replies decides
which calls it makes and how it ends (`course_eq_of_replies`). Affine maps that stand between a
drawing and a pen pass the replies on and change what arrives at the pen: the points and the
placements are mapped, by each map of the stack in its turn, and a mark that comes with a body
arrives as what it comes down to (`received_throughAll`, `received_throughAll_cons`). On a pen that
keeps the bodies of such marks, the drawing goes as on the pen that maps the points of each call
(`throughAll_maps_calls`). A pen with a way of its own to draw such a mark is not asked for it
through a map.
-/

namespace GlyphDrawing

/-- What becomes of `x`, mapped by the last map of the stack first and by the first one last. -/
abbrev mapAll {α : Type} [SMul Affine α] (stack : List Affine) (x : α) : α :=
  stack.foldr (· • ·) x

/-- Marks with points in them that can be mapped one by one. What else there is in a mark stays. -/
class Pointwise (Mark : Type) [SMul Affine Mark] where
  mapPoints : (Point Float → Point Float) → Mark → Mark
  /-- What a mark comes down to on a pen that has no way of its own to draw it. -/
  plain : Mark → Mark
  mapPoints_id (m : Mark) : mapPoints (fun p => p) m = m
  mapPoints_mapPoints (f g : Point Float → Point Float) (m : Mark) :
    mapPoints f (mapPoints g m) = mapPoints (fun p => f (g p)) m
  plain_plain (m : Mark) : plain (plain m) = plain m
  plain_mapPoints (f : Point Float → Point Float) (m : Mark) :
    plain (mapPoints f m) = mapPoints f (plain m)
  smul_eq_mapPoints (a : Affine) (m : Mark) : a • m = mapPoints (a • ·) (plain m)

namespace Stroke

def mapPoints (f : Point Float → Point Float) : Stroke → Stroke
  | move p => move (f p)
  | line p => line (f p)
  | quadratic controls target => quadratic (controls.map f) (target.map f)
  | bezier control target => bezier (f control) (f target)
  | cubic points => cubic (points.map f)
  | close => close
  | finish => finish

instance : Pointwise Stroke where
  mapPoints := mapPoints
  plain := plain
  mapPoints_id m := by
    cases m with
    | move | line | bezier | close | finish => rfl
    | quadratic controls target => rw [mapPoints, Array.map_id', Option.map_id_fun', id_eq]
    | cubic points => exact congrArg cubic (Array.map_id' points)
  mapPoints_mapPoints f g m := by
    cases m with
    | move | line | bezier | close | finish => rfl
    | quadratic controls target =>
      rw [mapPoints, mapPoints, Array.map_map, Option.map_map]
      rfl
    | cubic points => exact congrArg cubic Array.map_map
  plain_plain m := by cases m <;> rfl
  plain_mapPoints f m := by
    cases m with
    | move | line | quadratic | cubic | close | finish => rfl
    | bezier control target => rw [mapPoints, plain, plain, mapPoints, Array.map_singleton]; rfl
  smul_eq_mapPoints a m := by
    cases m with
    | move | line | quadratic | cubic | close | finish => rfl
    | bezier control target => rw [plain, mapPoints, Array.map_singleton]; rfl

end Stroke

namespace PathStep

def mapPoints (f : Point Float → Point Float) : PathStep → PathStep
  | start => start
  | point p role smooth name => point (f p) role smooth name
  | stop => stop

instance : Pointwise PathStep where
  mapPoints := mapPoints
  plain m := m
  mapPoints_id m := by cases m <;> rfl
  mapPoints_mapPoints f g m := by cases m <;> rfl
  plain_plain _ := rfl
  plain_mapPoints _ _ := rfl
  smul_eq_mapPoints a m := by cases m <;> rfl

end PathStep

section Replies

variable {σ Mark : Type} {respond : Responder σ Mark} {s : σ} {earlier later : List (Call Mark)}

def replies (respond : Responder σ Mark) (s : σ) : List (Call Mark) → List Reply
  | [] => []
  | c :: calls => (respond s c).2 :: replies respond (respond s c).1 calls

theorem replies_append :
    replies respond s (earlier ++ later) =
      replies respond s earlier ++ replies respond (after respond s earlier) later := by
  induction earlier generalizing s with
  | nil => rfl
  | cons c earlier ih =>
    rw [List.cons_append, replies, replies, ih, List.cons_append]
    rfl

theorem replies_map (f : Call Mark → Call Mark) (calls : List (Call Mark)) :
    replies respond s (calls.map f) = replies (fun s c => respond s (f c)) s calls := by
  induction calls generalizing s with
  | nil => rfl
  | cons c calls ih => rw [List.map_cons, replies, replies, ih]

end Replies

namespace Drawing

variable {σ τ Mark : Type} [SMul Affine Mark]

/-- A drawing makes the same calls and ends in the same way on two pens, as long as they give the
same replies. -/
theorem course_eq_of_replies {respond : Responder σ Mark} {respond' : Responder τ Mark}
    {d : Drawing Mark} {s : σ} {t : τ} {rest rest' : List Reply}
    (h : replies respond s (d.calls respond s) ++ rest =
      replies respond' t (d.calls respond' t) ++ rest') :
    d.calls respond s = d.calls respond' t ∧ (d.run respond s).2 = (d.run respond' t).2 ∧
      rest = rest' := by
  induction d generalizing respond respond' s t rest rest' with
  | done | fail => exact ⟨rfl, rfl, h⟩
  | call c => exact ⟨rfl, (List.cons.inj h).1, (List.cons.inj h).2⟩
  | andThen first second ih₁ ih₂ =>
    simp only [calls, replies_append, after_calls, List.append_assoc] at h
    -- the replies that the first part leaves are those with which the second one begins
    obtain ⟨hcalls, hreply, hrest⟩ := ih₁ h
    simp only [calls, run, hcalls]
    rcases h₁ : first.run respond s with ⟨s', e | ⟨⟩⟩ <;>
      rcases h₂ : first.run respond' t with ⟨t', e' | ⟨⟩⟩ <;>
      simp only [h₁, h₂, reduceCtorEq] at hreply hrest
    · exact ⟨rfl, hreply, hrest⟩
    · obtain ⟨hcalls₂, hreply₂, hrest₂⟩ := ih₂ hrest
      exact ⟨congrArg _ hcalls₂, hreply₂, hrest₂⟩
  | attempt trial onSuccess onFailure ih₁ ih₂ ih₃ =>
    simp only [calls, replies_append, after_calls, List.append_assoc] at h
    obtain ⟨hcalls, hreply, hrest⟩ := ih₁ h
    simp only [calls, run, hcalls]
    rcases h₁ : trial.run respond s with ⟨s', e | ⟨⟩⟩ <;>
      rcases h₂ : trial.run respond' t with ⟨t', e' | ⟨⟩⟩ <;>
      simp only [h₁, h₂, reduceCtorEq] at hreply hrest
    · obtain ⟨hcalls₃, hreply₃, hrest₃⟩ := ih₃ hrest
      exact ⟨congrArg _ hcalls₃, hreply₃, hrest₃⟩
    · obtain ⟨hcalls₂, hreply₂, hrest₂⟩ := ih₂ hrest
      exact ⟨congrArg _ hcalls₂, hreply₂, hrest₂⟩
  | through a inner ih =>
    simp only [calls, replies_map] at h
    obtain ⟨hcalls, hreply, hrest⟩ := ih h
    exact ⟨congrArg (List.map (a • ·)) hcalls, hreply, hrest⟩

def throughAll (stack : List Affine) (d : Drawing Mark) : Drawing Mark :=
  stack.foldr through d

theorem run_throughAll (stack : List Affine) (d : Drawing Mark) (respond : Responder σ Mark)
    (s : σ) :
    (d.throughAll stack).run respond s = d.run (fun s c => respond s (mapAll stack c)) s := by
  induction stack generalizing respond with
  | nil => rfl
  | cons a stack ih => exact ih fun s c => respond s (a • c)

theorem calls_throughAll (stack : List Affine) (d : Drawing Mark) (respond : Responder σ Mark)
    (s : σ) :
    (d.throughAll stack).calls respond s =
      (d.calls (fun s c => respond s (mapAll stack c)) s).map (mapAll stack) := by
  induction stack generalizing respond with
  | nil => exact (List.map_id' _).symm
  | cons a stack ih =>
    have hcalls := ih fun s c => respond s (a • c)
    calc ((d.throughAll stack).calls (fun s c => respond s (a • c)) s).map (a • ·)
      _ = ((d.calls (fun s c => respond s (a • mapAll stack c)) s).map (mapAll stack)).map
            (a • ·) := by rw [hcalls]
      _ = _ := List.map_map

end Drawing

namespace Call

variable {Mark : Type} [SMul Affine Mark] [Pointwise Mark]

def plain : Call Mark → Call Mark
  | mark m => mark (Pointwise.plain m)
  | component r => component r

/-- The call with each of its points and its placement mapped through the stack. A name stays. -/
def throughAll (stack : List Affine) : Call Mark → Call Mark
  | mark m => mark (Pointwise.mapPoints (mapAll stack) m)
  | component r => component ⟨r.name, stack.foldr (· * ·) r.placement⟩

theorem plain_smul (a : Affine) (c : Call Mark) : (a • c).plain = a • c := by
  cases c with
  | mark m =>
    have hmark : Pointwise.plain (a • m) = a • m := by
      rw [Pointwise.smul_eq_mapPoints, Pointwise.plain_mapPoints, Pointwise.plain_plain]
    exact congrArg mark hmark
  | component r => rfl

theorem plain_throughAll (stack : List Affine) (c : Call Mark) :
    (c.throughAll stack).plain = c.plain.throughAll stack := by
  cases c with
  | mark m => exact congrArg mark (Pointwise.plain_mapPoints _ m)
  | component r => rfl

theorem plain_mapAll_mark (stack : List Affine) (m : Mark) :
    Pointwise.plain (mapAll stack m) = Pointwise.mapPoints (mapAll stack) (Pointwise.plain m) := by
  induction stack with
  | nil => exact (Pointwise.mapPoints_id _).symm
  | cons a stack ih =>
    have ih : Pointwise.plain (stack.foldr (· • ·) m) = _ := ih
    rw [mapAll, List.foldr_cons, Pointwise.smul_eq_mapPoints, Pointwise.plain_mapPoints,
      Pointwise.plain_plain, ih, Pointwise.mapPoints_mapPoints]
    rfl

/-- Whatever becomes of a call in the stack, it comes down to the plain call, mapped. -/
theorem plain_mapAll (stack : List Affine) (c : Call Mark) :
    (mapAll stack c).plain = c.plain.throughAll stack := by
  cases c with
  | mark m =>
    have hmark : mapAll stack (mark m) = mark (mapAll stack m) :=
      List.foldr_hom mark (fun _ _ => rfl)
    rw [hmark]
    exact congrArg mark (plain_mapAll_mark stack m)
  | component r =>
    have hcomponent : mapAll stack (component r : Call Mark) =
        component ⟨r.name, stack.foldr (· * ·) r.placement⟩ := by
      induction stack with
      | nil => rfl
      | cons a stack ih => exact congrArg (a • ·) ih
    rw [hcomponent]
    rfl

end Call

/-- The pen has no way of its own to draw a mark that comes with a body. -/
def KeepsBodies {σ Mark : Type} [SMul Affine Mark] [Pointwise Mark] (respond : Responder σ Mark) :
    Prop :=
  ∀ s c, respond s (Call.plain c) = respond s c

theorem keepsBodies_strokePen : KeepsBodies (Pen.respond : Responder StrokePen Stroke) := by
  rintro p (m | r)
  · exact p.mark_plain m
  · rfl

theorem keepsBodies_of_pathSteps {σ : Type} (respond : Responder σ PathStep) :
    KeepsBodies respond := by
  rintro s (m | r) <;> rfl

namespace Drawing

section Maps

variable {σ τ Mark : Type} [SMul Affine Mark] [Pointwise Mark]

/-- The calls that a pen receives which keeps the bodies of marks. -/
def received (respond : Responder σ Mark) (d : Drawing Mark) (s : σ) : List (Call Mark) :=
  (d.calls respond s).map Call.plain

/-- Behind a map, every pen receives plain calls. -/
theorem received_throughAll_cons (a : Affine) (stack : List Affine) (d : Drawing Mark)
    (respond : Responder σ Mark) (s : σ) :
    (d.throughAll (a :: stack)).received respond s = (d.throughAll (a :: stack)).calls respond s := by
  have hthrough : (d.throughAll (a :: stack)).calls respond s =
      ((d.throughAll stack).calls (fun s c => respond s (a • c)) s).map (a • ·) := rfl
  rw [received, hthrough, List.map_map]
  exact List.map_congr_left fun c _ => Call.plain_smul a c

/-- Drawn through the stack on any pen, and on any other pen with the same replies as far as they
go, a drawing makes the same plain calls but for the maps, and it ends in the same way. -/
theorem received_throughAll {stack : List Affine} {d : Drawing Mark} {respond : Responder σ Mark}
    {respond' : Responder τ Mark} {s : σ} {t : τ} {script : List Reply}
    (hscript : replies respond s ((d.throughAll stack).calls respond s) <+: script)
    (hscript' : replies respond' t (d.calls respond' t) <+: script) :
    (d.throughAll stack).received respond s =
        (d.received respond' t).map (Call.throughAll stack) ∧
      replies respond s ((d.throughAll stack).calls respond s) =
        replies respond' t (d.calls respond' t) ∧
      ((d.throughAll stack).run respond s).2 = (d.run respond' t).2 := by
  have hcalls := calls_throughAll stack d respond s
  rw [hcalls, replies_map] at hscript
  obtain ⟨rest, hrest⟩ := hscript
  obtain ⟨rest', hrest'⟩ := hscript'
  obtain ⟨hsame, hreply, rfl⟩ := course_eq_of_replies (hrest.trans hrest'.symm)
  refine ⟨?_, ?_, ?_⟩
  · rw [received, received, hcalls, hsame, List.map_map, List.map_map]
    exact List.map_congr_left fun c _ => Call.plain_mapAll stack c
  · rw [hcalls, replies_map]
    exact List.append_cancel_right (hrest.trans hrest'.symm)
  · rw [run_throughAll, hreply]

/-- Drawn through the stack on a pen that keeps the bodies of marks, a drawing runs as on the pen
that maps each call first. On any pen with the same replies as far as they go, the same calls are
received but for the maps, and the drawing ends in the same way. -/
theorem throughAll_maps_calls (stack : List Affine) (d : Drawing Mark) {respond : Responder σ Mark}
    (hkeeps : KeepsBodies respond) (s : σ) :
    (d.throughAll stack).run respond s = d.run (fun s c => respond s (c.throughAll stack)) s ∧
      ∀ {τ : Type} (respond' : Responder τ Mark) (t : τ) (script : List Reply),
        replies respond s ((d.throughAll stack).calls respond s) <+: script →
        replies respond' t (d.calls respond' t) <+: script →
          (d.throughAll stack).received respond s =
              (d.received respond' t).map (Call.throughAll stack) ∧
            replies respond s ((d.throughAll stack).calls respond s) =
              replies respond' t (d.calls respond' t) ∧
            ((d.throughAll stack).run respond s).2 = (d.run respond' t).2 := by
  refine ⟨?_, fun _ _ _ hscript hscript' => received_throughAll hscript hscript'⟩
  have hmap (s : σ) (c : Call Mark) :
      respond s (mapAll stack c) = respond s (c.throughAll stack) := by
    rw [← hkeeps, Call.plain_mapAll, ← Call.plain_throughAll, hkeeps]
  rw [run_throughAll, funext fun s => funext (hmap s)]

end Maps

def scripted {Mark : Type} : Responder (List Reply) Mark :=
  fun script _ => (script.tail, script.headD (.ok ()))

def doubled : Affine :=
  ⟨⟨2, 0, 0, 2⟩, ⟨0, 0⟩⟩

def shifted : Affine :=
  ⟨.identity, ⟨100, 0⟩⟩

def detour : Drawing Stroke :=
  inOrder [call (.mark (.move ⟨1, 1⟩)),
    through shifted (call (.mark (.quadratic #[⟨3, 4⟩] none))),
    attempt (call (.mark (.cubic #[⟨5, 5⟩]))) done (call (.component ⟨"a", .identity⟩)),
    call (.mark (.bezier ⟨7, 7⟩ ⟨8, 8⟩)),
    call (.mark (.cubic #[⟨6, 6⟩])),
    call (.mark .close)]

def detourReplies : List Reply :=
  [.ok (), .ok (), .error .cubicCurve, .ok (), .ok (), .error .cubicCurve]

def snag : Drawing PathStep :=
  inOrder [call (.mark .start),
    through shifted (call (.mark (.point ⟨1, 2⟩ (some .line) true (some "tip")))),
    call (.mark (.point ⟨3, 4⟩ (some .move) false none)),
    call (.mark .stop)]

def snagReplies : List Reply :=
  [.ok (), .ok (), .error .moveInPath]

/-- Both drawings through two maps, on the pens of their protocols. The script shows the replies to
a drawing that goes without the maps. The first one places a component where a cubic is refused, and
ends with the second refusal; the other one ends with a point that cannot be drawn. -/
theorem detour_throughAll :
    (replies Pen.respond StrokePen.empty
        ((detour.throughAll [shifted, doubled]).calls Pen.respond StrokePen.empty) <+:
          detourReplies ∧
      replies scripted detourReplies (detour.calls scripted detourReplies) <+: detourReplies ∧
      (detour.throughAll [shifted, doubled]).received Pen.respond StrokePen.empty =
        [.mark (.move ⟨102, 2⟩), .mark (.quadratic #[⟨306, 8⟩] none), .mark (.cubic #[⟨110, 10⟩]),
          .component ⟨"a", ⟨⟨2, 0, 0, 2⟩, ⟨100, 0⟩⟩⟩,
          .mark (.quadratic #[⟨114, 14⟩] (some ⟨116, 16⟩)), .mark (.cubic #[⟨112, 12⟩])] ∧
      ((detour.throughAll [shifted, doubled]).run Pen.respond StrokePen.empty).2 =
        .error .cubicCurve) ∧
    (replies Pen.respond PathPen.empty
        ((snag.throughAll [shifted, doubled]).calls Pen.respond PathPen.empty) <+: snagReplies ∧
      replies scripted snagReplies (snag.calls scripted snagReplies) <+: snagReplies ∧
      (snag.throughAll [shifted, doubled]).received Pen.respond PathPen.empty =
        [.mark .start, .mark (.point ⟨302, 4⟩ (some .line) true (some "tip")),
          .mark (.point ⟨106, 8⟩ (some .move) false none)] ∧
      ((snag.throughAll [shifted, doubled]).run Pen.respond PathPen.empty).2 =
        .error .moveInPath) := by
  have hstrokes : replies Pen.respond StrokePen.empty
      ((detour.throughAll [shifted, doubled]).calls Pen.respond StrokePen.empty) <+:
        detourReplies := ⟨[], rfl⟩
  have hstrokes' : replies scripted detourReplies (detour.calls scripted detourReplies) <+:
      detourReplies := ⟨[], rfl⟩
  have hpath : replies Pen.respond PathPen.empty
      ((snag.throughAll [shifted, doubled]).calls Pen.respond PathPen.empty) <+:
        snagReplies := ⟨[], rfl⟩
  have hpath' : replies scripted snagReplies (snag.calls scripted snagReplies) <+:
      snagReplies := ⟨[], rfl⟩
  obtain ⟨hcalls, -, hreply⟩ := (throughAll_maps_calls [shifted, doubled] detour
    keepsBodies_strokePen StrokePen.empty).2 scripted detourReplies detourReplies hstrokes hstrokes'
  obtain ⟨hsteps, -, hend⟩ := (throughAll_maps_calls [shifted, doubled] snag
    (keepsBodies_of_pathSteps _) PathPen.empty).2 scripted snagReplies snagReplies hpath hpath'
  exact ⟨⟨hstrokes, hstrokes', hcalls.trans (by decide +kernel), hreply.trans rfl⟩,
    hpath, hpath', hsteps.trans (by decide +kernel), hend.trans rfl⟩

def curve : Drawing Stroke :=
  call (.mark (.bezier ⟨1, 1⟩ ⟨2, 2⟩))

/-- The recorder has a way of its own to take the curve, and without maps it gets the curve. Through
a map it gets the spline, with the same reply. -/
theorem bezier_through_doubled :
    replies recorder #[] ((curve.throughAll [doubled]).calls recorder #[]) =
        replies recorder #[] (curve.calls recorder #[]) ∧
      (curve.throughAll [doubled]).calls recorder #[] =
        [.mark (.quadratic #[⟨2, 2⟩] (some ⟨4, 4⟩))] ∧
      (curve.calls recorder #[]).map (Call.throughAll [doubled]) =
        [.mark (.bezier ⟨2, 2⟩ ⟨4, 4⟩)] ∧
      (curve.throughAll [doubled]).calls recorder #[] ≠
        (curve.calls recorder #[]).map (Call.throughAll [doubled]) := by
  have hthrough : (curve.throughAll [doubled]).calls recorder #[] =
      [.mark (.quadratic #[⟨2, 2⟩] (some ⟨4, 4⟩))] := by decide +kernel
  have hdirect : (curve.calls recorder #[]).map (Call.throughAll [doubled]) =
      [.mark (.bezier ⟨2, 2⟩ ⟨4, 4⟩)] := by decide +kernel
  refine ⟨rfl, hthrough, hdirect, ?_⟩
  rw [hthrough, hdirect]
  simp

end Drawing

end GlyphDrawing
