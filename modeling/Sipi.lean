import Sipi.Theory.Reader
import Sipi.Theory.Runs
import Sipi.Theory.Semaphore
import Sipi.Theory.Table
import Sipi.Theory.Tally
import Sipi.Theory.Interaction
import Sipi.Theory.Halving
import Sipi.Theory.Fallible
import Sipi.Theory.Fields
import Sipi.Theory.Loops
import Sipi.Theory.Rounding
import Sipi.Theory.FixedPoint
import Sipi.Theory.Buffers
import Sipi.Theory.Pictures
import Sipi.Theory.ByteFile
import Sipi.Theory.Search
import Sipi.Theory.Blocks
import Sipi.Theory.HeaderFields
import Sipi.Theory.Utf8
import Sipi.Theory.Positional
import Sipi.Iiif.Grammar
import Sipi.Iiif.Parse
import Sipi.Iiif.Params
import Sipi.Iiif.Decode
import Sipi.Iiif.Request
import Sipi.Iiif.Classifier
import Sipi.Iiif.Port
import Sipi.Throttling.Admission
import Sipi.Throttling.Floor
import Sipi.Throttling.Drain
import Sipi.Throttling.Queue
import Sipi.Throttling.Basic
import Sipi.Throttling.Budget
import Sipi.Preflight.Cache
import Sipi.Preflight.Key
import Sipi.Preflight.Decision
import Sipi.Cache.Store
import Sipi.Cache.Purge
import Sipi.Cache.Accounting
import Sipi.Cache.Files
import Sipi.Cache.Entries
import Sipi.Cache.Limits
import Sipi.Cache.Pins
import Sipi.Cache.Restart
import Sipi.Geometry.Size
import Sipi.Geometry.Reduce
import Sipi.Geometry.Redonly
import Sipi.Geometry.Region
import Sipi.Geometry.Crop
import Sipi.Geometry.LevelCrop
import Sipi.Geometry.Readers
import Sipi.Geometry.Rotation
import Sipi.Geometry.SingleSize
import Sipi.Throttling.Classify
import Sipi.Throttling.PeakMemory
import Sipi.Throttling.Wrapping
import Sipi.Image.Blend
import Sipi.Image.Raster
import Sipi.Image.Orientation
import Sipi.Image.Channels
import Sipi.Image.Bitonal
import Sipi.Image.Diffusion
import Sipi.Image.Axis
import Sipi.Image.Resample
import Sipi.Image.Scale
import Sipi.Image.Nearest
import Sipi.Image.Bilinear
import Sipi.Image.Difference
import Sipi.Image.Icc
import Sipi.Image.Representation
import Sipi.Serve.Sink
import Sipi.Serve.Delivery
import Sipi.Serve.Range
import Sipi.Serve.DocrootRange
import Sipi.Serve.Restricted
import Sipi.Serve.SizeString
import Sipi.Serve.CacheKey
import Sipi.Serve.Separation
import Sipi.Serve.Containment
import Sipi.Serve.Watermark
import Sipi.Serve.Freshness
import Sipi.Serve.Orphans
import Sipi.Serve.Within
import Sipi.Serve.InfoJson
import Sipi.Serve.Advertised
import Sipi.Serve.Tee
import Sipi.Serve.Disposition
import Sipi.Metadata.Rationals
import Sipi.Metadata.Essentials
import Sipi.Metadata.ServiceFile
import Sipi.Formats.Scanlines
import Sipi.Formats.ScanRegion
import Sipi.Formats.Tiles
import Sipi.Formats.Pyramid
import Sipi.Formats.TiffRead
import Sipi.Formats.MemTiff
import Sipi.Formats.BlockMean
import Sipi.Formats.Bilevel
import Sipi.Formats.PyramidWrite
import Sipi.Formats.PyramidKeeps
import Sipi.Formats.JpegMarkers
import Sipi.Formats.JpegMetadata
import Sipi.Formats.Palette
import Sipi.Formats.PngHeader
import Sipi.Formats.PngRead
import Sipi.Scripting.Route
import Sipi.Scripting.Integrity
import Sipi.Scripting.SizeUnits
import Sipi.Scripting.SoleUuid
import Sipi.Scripting.BytecodeCache
