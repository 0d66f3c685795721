import BamlRest.Bamlutils.DynamicAbsent
import BamlRest.Bamlutils.EffectiveClient
import BamlRest.Bamlutils.ExactStream
import BamlRest.Bamlutils.ReasoningSeparate
import BamlRest.Bamlutils.StreamProtocol
import BamlRest.Bamlutils.TrustedConfig
import BamlRest.Debaml.Candidates
import BamlRest.Debaml.ClassCycle
import BamlRest.Debaml.Comments
import BamlRest.Debaml.CompleteSound
import BamlRest.Debaml.Extract
import BamlRest.Debaml.FixStrict
import BamlRest.Debaml.Nfkd
import BamlRest.Debaml.Spine
import BamlRest.Debaml.StreamAgree
import BamlRest.Debaml.Support
import BamlRest.Dynclient.Stream
import BamlRest.NativePrompt.Dynamic
import BamlRest.NativePrompt.StaticRender
import BamlRest.NativeSchema.DescriptorConsistent
import BamlRest.Nativeserve.ShortEscapes
import BamlRest.Pool.CallStream
import BamlRest.Pool.Drain
import BamlRest.Pool.RestartSafety
import BamlRest.Pool.StderrTail
import BamlRest.Schema.Closed
import BamlRest.Schema.Index
import BamlRest.Schema.RenderTerminates
import BamlRest.Serve.StreamReadBack
import BamlRest.WorkerPlugin.RemoteAdvancer
import BamlRest.WorkerPlugin.SharedStateIdem
import BamlRest.WorkerPlugin.SharedStateScopes
